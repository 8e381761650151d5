import ChainIndex.Proofs.Accumulator.Block
import ChainIndex.Proofs.Indexer.BlockWrites
import ChainIndex.Proofs.Indexer.Redelivery

/-!
The writes of a block, but for those of its tokens, made twice. They do not depend on what is stored, and
whatever they do to a document they do no more when they are made again.
-/
namespace ChainIndex

namespace WriteItem

variable {id : String} {items : List WriteItem} {stored : Option Value}

theorem applyAt_twice_of_absolute (h : ∀ item ∈ items, item.action.IsAbsolute) (stored : Option Value) :
    applyAt id items (applyAt id items stored) = applyAt id items stored := by
  by_cases hm : ∃ item ∈ items, item.id = id
  · exact applyAt_eq_of_absolute h hm _ _
  · have hnone : ∀ item ∈ items, item.id ≠ id := fun item hi he => hm ⟨item, hi, he⟩
    rw [applyAt_of_not_mem _ hnone, applyAt_of_not_mem _ hnone]

theorem isDocument_applyAt (hi : ∀ item ∈ items, item.action.Ordered)
    (h : ∀ doc, stored = some doc → doc.IsDocument) {doc : Value} (hd : applyAt id items stored = some doc) :
    doc.IsDocument := by
  have hfold := List.foldlRecOn
    (motive := fun stored : Option Value => ∀ doc, stored = some doc → doc.IsDocument) items
    (fun doc item => if item.id = id then item.action.apply doc else doc) h fun before hb item hm doc hd => by
      split at hd
      · exact (hi item hm).isDocument_apply hb hd
      · exact hb doc hd
  exact hfold doc hd

end WriteItem

namespace DelegatorAccumulator

variable {d : DelegatorAccumulator} {cs : List StakeChange}

theorem Gathers.ordered (h : d.Gathers cs) : ∀ m ∈ d.mutations, m.Ordered := by
  obtain ⟨kept, -, hms⟩ := h
  intro m hm
  rw [hms] at hm
  obtain ⟨c, -, hc⟩ := List.mem_flatMap.1 hm
  exact c.ordered_mutations m hc

theorem Gathers.ordered_action (h : d.Gathers cs) : d.action.Ordered := by
  unfold action
  split
  · trivial
  · exact Mutation.isDocument_applyAll h.ordered Value.isDocument_empty
  · exact h.ordered

theorem Gathers.settles_action (h : d.Gathers cs)
    (ho : ∀ kept, List.Sublist kept cs → StakeChange.InOrder kept) : d.action.Settles := by
  unfold action
  split
  · trivial
  · trivial
  · obtain ⟨kept, hsub, hms⟩ := h
    change Mutation.Settle d.mutations
    rw [hms]
    exact StakeChange.settle_mutations (ho kept hsub)

theorem isFree_action (d : DelegatorAccumulator) : d.action.IsFree := by
  unfold action
  split <;> trivial

end DelegatorAccumulator

namespace BlockAccumulators

variable {acc : BlockAccumulators} {events : List Delta}

/-- The one write of a delegator's document settles, and so does that of a contract's. -/
theorem Gathers.applyAt_delegators_twice (h : acc.Gathers events) (hf : FundsKept events) {stored : Option Value}
    (hs : ∀ doc, stored = some doc → doc.IsDocument) (id : String) :
    WriteItem.applyAt id acc.delegatorWrites (WriteItem.applyAt id acc.delegatorWrites stored) =
      WriteItem.applyAt id acc.delegatorWrites stored := by
  have hmap (stored : Option Value) := WriteItem.applyAt_map id stored h.sortedDelegators.nodup_keys fun _ d => d.action
  unfold delegatorWrites
  rw [hmap, hmap]
  cases hd : acc.delegators.find? id with
  | none => rfl
  | some d => exact ((h.delegators id d hd).settles_action fun kept hk => hf.inOrder id hk).apply_apply hs

/-- The writes of contracts, made again, change nothing. -/
theorem Gathers.applyAt_contracts_twice (h : acc.Gathers events) {stored : Option Value}
    (hs : ∀ doc, stored = some doc → doc.IsDocument) (id : String) :
    WriteItem.applyAt id acc.contractWrites (WriteItem.applyAt id acc.contractWrites stored) =
      WriteItem.applyAt id acc.contractWrites stored := by
  have hsorted := h.sortedContracts.filter fun e => !e.2.mutations.isEmpty
  have hmap (stored : Option Value) := WriteItem.applyAt_map id stored hsorted.nodup_keys fun _ c => .upsert c.mutations
  unfold contractWrites
  rw [hmap, hmap]
  cases hc : Dict.find? (acc.contracts.filter fun e => !e.2.mutations.isEmpty) id with
  | none => rfl
  | some c =>
    have hmem := (List.mem_filter.1 (Dict.mem_of_find? hc)).1
    have hsimple := h.contracts id c (h.sortedContracts.find?_of_mem hmem)
    have hsettles : (WriteAction.upsert c.mutations).Settles := Mutation.settle_of_simple hsimple
    exact hsettles.apply_apply hs

theorem Gathers.ordered_delegatorWrites (h : acc.Gathers events) :
    ∀ item ∈ acc.delegatorWrites, item.action.Ordered := by
  intro item hi
  obtain ⟨⟨id, d⟩, hm, rfl⟩ := List.mem_map.1 hi
  exact (h.delegators id d (h.sortedDelegators.find?_of_mem hm)).ordered_action

theorem Gathers.ordered_contractWrites (h : acc.Gathers events) :
    ∀ item ∈ acc.contractWrites, item.action.Ordered := by
  intro item hi
  obtain ⟨⟨name, c⟩, hm, rfl⟩ := List.mem_map.1 hi
  have hc := h.sortedContracts.find?_of_mem (List.mem_filter.1 hm).1
  exact fun m hm => (h.contracts name c hc m hm).ordered

end BlockAccumulators

section Blocks

variable (header : Header) (body : Body)

theorem ordered_blockWrite : (blockWrite header body).action.Ordered := by
  refine Value.isDocument_record ?_
  simp [Json.ordered_ofInt]

theorem ordered_miniBlockWrites : ∀ item ∈ miniBlockWrites header body, item.action.Ordered := by
  intro item hi
  obtain ⟨m, -, rfl⟩ := List.mem_map.1 hi
  refine List.forall_mem_singleton.2 (Value.isDocument_record ?_)
  split <;> split <;> simp

/-- The writes of miniblocks, made again, change nothing. -/
theorem applyAt_miniBlockWrites_twice {stored : Option Value} (hs : ∀ doc, stored = some doc → doc.IsDocument)
    (id : String) :
    WriteItem.applyAt id (miniBlockWrites header body) (WriteItem.applyAt id (miniBlockWrites header body) stored) =
      WriteItem.applyAt id (miniBlockWrites header body) stored := by
  rw [applyAt_miniBlockWrites, applyAt_miniBlockWrites]
  split
  · rfl
  · have hflat : ∀ patch ∈ (miniBlocksAt header body id).map (miniBlockDocument header), patch.IsFlat :=
      List.forall_mem_map.2 fun m _ => isFlat_miniBlockDocument header m
    have honce := (Value.isDocument_getD hs).record.mergeAll hflat
    refine congrArg some ((honce.mergeAll hflat).ext honce fun key => ?_)
    rw [Value.get?_mergeAll hflat, Value.get?_mergeAll hflat]
    cases List.findSome? (fun patch : Value => patch.get? key) _ <;> rfl

end Blocks

namespace BalanceWriter

theorem isDocument_document (w : BalanceWriter) (address : String) (t : TokenBalance) :
    (w.document address t).IsDocument := by
  refine Value.isDocument_record fun e he => ?_
  simp only [List.mem_append, List.mem_cons, List.not_mem_nil, or_false] at he
  rcases he with (he | he) | he
  · rcases he with rfl | rfl | rfl | rfl | rfl | rfl | rfl | rfl <;> simp
  · split at he
    · cases he
    · rw [List.mem_singleton.1 he]
      trivial
  · obtain ⟨m, -, rfl⟩ := List.mem_map.1 he
    exact Json.ordered_toValue _

theorem ordered_writes (w : BalanceWriter) (accounts : Dict AlteredAccount) :
    ∀ item ∈ w.writes accounts, item.action.Ordered := by
  intro item hi
  rcases w.action_of_mem_writes accounts hi with h | ⟨address, balance, h⟩
  · rw [h]
    trivial
  · rw [h]
    exact w.isDocument_document address balance

end BalanceWriter

namespace Indexer

variable (ix : Indexer) (block : Block)

def deltas (ix : Indexer) (block : Block) : List Delta := ix.registry.deltas block.pool block.header.timestamp

theorem gathers_accumulate : (ix.accumulate block).Gathers (ix.deltas block) :=
  ix.registry.gathers_processLogs _ _

section Records

variable {block} {name id : String} {stored : Option Value}

theorem isDocument_resultDocument {doc : Value} (h : ix.resultDocument block id = some doc) : doc.IsDocument := by
  obtain ⟨info, -, rfl⟩ := Option.map_eq_some_iff.1 h
  exact ⟨ScResultRecord.isRecord_toValue _, Json.ordered_toValue _⟩

theorem heldTx_fee (block : Block) (id : String) (info : TxInfo) :
    ∃ fee gas refunds d, (ix.heldTx block id info).fee = .absolute fee gas refunds d := by
  have hfee := ix.correlator.absoluteFee_eq info (block.pool.refundsOf id)
  exact ⟨_, _, _, _, hfee⟩

theorem isDocument_recordAfter (hs : ∀ doc, stored = some doc → doc.IsDocument) {doc : Value}
    (h : ix.recordAfter block name id stored = some doc) : doc.IsDocument := by
  have hbefore := Value.isDocument_getD hs
  rcases ix.recordAfter_cases block h with ⟨result, -, -, -, hr, rfl⟩ | ⟨info, -, rfl⟩ | ⟨-, rfl⟩ | ⟨hold, -⟩
  · exact (ix.isDocument_resultDocument hr).set _ trivial
  · exact Mutation.isDocument_applyAll ((ix.heldTx block id info).ordered_mutations name) hbefore
  · exact Mutation.isDocument_applyAll ((ix.foreignUpdate block id).ordered_mutations _ name) hbefore
  · exact hs doc hold

/-- A transaction is written as it was when its block is delivered again. -/
theorem recordAfter_recordAfter (hs : ∀ doc, stored = some doc → doc.IsDocument) :
    ix.recordAfter block name id (ix.recordAfter block name id stored) = ix.recordAfter block name id stored := by
  have hbefore := Value.isDocument_getD hs
  unfold recordAfter
  split
  · rfl
  · split
    · next ms hms =>
      refine congrArg some ?_
      rw [Option.getD_some]
      cases hi : block.pool.transactions.find? id with
      | some info =>
        rw [ix.changes?_of_held block hi] at hms
        obtain rfl := Option.some.inj hms
        obtain ⟨fee, gas, refunds, d, hfee⟩ := ix.heldTx_fee block id info
        exact (ix.heldTx block id info).settle_mutations name hfee _ hbefore
      | none =>
        rw [ix.changes?_of_foreign block hi] at hms
        split at hms
        · obtain rfl := Option.some.inj hms
          exact (ix.foreignUpdate block id).settle_mutations _ name _ hbefore
        · cases hms
    · rfl

end Records

theorem isAbsolute_scResults : ∀ item ∈ (ix.recordWrites block).scResults, item.action.IsAbsolute := by
  unfold recordWrites CorrelatedBlock.writes
  intro item hi
  obtain ⟨r, -, rfl⟩ := List.mem_map.1 hi
  trivial

/-- The writes to an index: those of records, or one of the other groups, or none. -/
theorem writesTo_cases (name : String) :
    name ∈ Index.records ∨
    name = Index.scResults ∧ ix.writesTo block name = (ix.recordWrites block).scResults ∨
    ix.writesTo block name = (ix.accumulate block).delegatorWrites ∨
    ix.writesTo block name = (ix.accumulate block).contractWrites ∨
    ix.writesTo block name = (ix.balanceWriter block.header).writes block.accounts ∨
    ix.writesTo block name = [blockWrite block.header block.body] ∨
    ix.writesTo block name = miniBlockWrites block.header block.body ∨
    ix.writesTo block name = [] := by
  by_cases hn : name ∈ Index.all
  · simp only [Index.all, List.mem_cons, List.not_mem_nil, or_false] at hn
    rcases hn with rfl | rfl | rfl | rfl | rfl | rfl | rfl | rfl | rfl
    · exact .inl (by decide)
    · exact .inr (.inl ⟨rfl, rfl⟩)
    · exact .inl (by decide)
    · exact .inr (.inr (.inr (.inr (.inr (.inr (.inr rfl))))))
    · exact .inr (.inr (.inl rfl))
    · exact .inr (.inr (.inr (.inl rfl)))
    · exact .inr (.inr (.inr (.inr (.inl rfl))))
    · exact .inr (.inr (.inr (.inr (.inr (.inl rfl)))))
    · exact .inr (.inr (.inr (.inr (.inr (.inr (.inl rfl))))))
  · have hnone : (ix.groups block []).find? name = none := by
      refine Dict.find?_eq_none_iff.2 fun hm => hn ?_
      exact (by decide : [Index.transactions, Index.scResults, Index.operations, Index.tokens, Index.delegators,
        Index.deploys, Index.balances, Index.blocks, Index.miniBlocks] ⊆ Index.all) hm
    refine .inr (.inr (.inr (.inr (.inr (.inr (.inr ?_))))))
    rw [writesTo, hnone]
    rfl

theorem groups_find?_of_ne (tokens : List WriteItem) {name : String} (hn : name ≠ Index.tokens) :
    ((ix.groups block tokens).find? name).getD [] = ix.writesTo block name := by
  unfold writesTo groups
  simp only [Dict.find?, hn.symm, ↓reduceIte]

/-- Only tokens are written by updates of what is stored. -/
theorem isFree_writesTo_all (name : String) : ∀ item ∈ ix.writesTo block name, item.action.IsFree := by
  rcases ix.writesTo_cases block name with hn | ⟨rfl, -⟩ | he | he | he | he | he | he
  · exact ix.isFree_writesTo block (Index.mem_revertible_of_mem_records hn)
  · exact ix.isFree_writesTo block (by decide)
  · rw [he]
    intro item hi
    obtain ⟨e, -, rfl⟩ := List.mem_map.1 hi
    exact e.2.isFree_action
  · rw [he]
    intro item hi
    obtain ⟨e, -, rfl⟩ := List.mem_map.1 hi
    trivial
  · rw [he]
    exact isFree_balances _ _
  · rw [he]
    exact List.forall_mem_singleton.2 trivial
  · rw [he]
    intro item hi
    obtain ⟨m, -, rfl⟩ := List.mem_map.1 hi
    trivial
  · rw [he]
    nofun

/-- What a block makes of a document that is none of a token. -/
theorem applyAt_batch_of_ne (tokens : List WriteItem) {name : String} (hn : name ≠ Index.tokens) (id : String)
    (stored : Option Value) :
    (ix.batch block tokens).applyAt name id stored = ix.written block name id stored := by
  have hgroup := ix.groups_find?_of_ne block tokens hn
  rw [batch_eq_foldl, WriteBatch.applyAt_foldl_extend (ix.nodup_keys_groups block tokens)
    (hgroup ▸ ix.isFree_writesTo_all block name) (WriteBatch.free_empty name), hgroup]
  rfl

variable {block} {name id : String} {stored : Option Value}

/-- What a block writes is in order, if what is stored is. -/
theorem isDocument_written (hb : block.Ordered) (hs : ∀ doc, stored = some doc → doc.IsDocument) {doc : Value}
    (hd : ix.written block name id stored = some doc) : doc.IsDocument := by
  have hgathers := ix.gathers_accumulate block
  rcases ix.writesTo_cases block name with hn | ⟨rfl, -⟩ | he | he | he | he | he | he
  · rw [ix.written_records block hb hn] at hd
    exact ix.isDocument_recordAfter hs hd
  · rw [ix.written_scResults block hb, Option.or_eq_some_iff] at hd
    exact hd.elim ix.isDocument_resultDocument fun h => hs doc h.2
  all_goals rw [written, he] at hd
  · exact WriteItem.isDocument_applyAt hgathers.ordered_delegatorWrites hs hd
  · exact WriteItem.isDocument_applyAt hgathers.ordered_contractWrites hs hd
  · exact WriteItem.isDocument_applyAt (BalanceWriter.ordered_writes _ _) hs hd
  · exact WriteItem.isDocument_applyAt (List.forall_mem_singleton.2 (ordered_blockWrite _ _)) hs hd
  · exact WriteItem.isDocument_applyAt (ordered_miniBlockWrites _ _) hs hd
  · exact hs doc hd

/-- What a block makes of a document that is none of a token, it makes of it once. -/
theorem written_written (hb : block.Ordered) (hf : FundsKept (ix.deltas block))
    (hs : ∀ doc, stored = some doc → doc.IsDocument) :
    ix.written block name id (ix.written block name id stored) = ix.written block name id stored := by
  have hgathers := ix.gathers_accumulate block
  rcases ix.writesTo_cases block name with hn | ⟨rfl, he⟩ | he | he | he | he | he | he
  · rw [ix.written_records block hb hn, ix.written_records block hb hn]
    exact ix.recordAfter_recordAfter hs
  all_goals rw [written, written, he]
  · exact WriteItem.applyAt_twice_of_absolute (ix.isAbsolute_scResults block) stored
  · exact hgathers.applyAt_delegators_twice hf hs id
  · exact hgathers.applyAt_contracts_twice hs id
  · exact WriteItem.applyAt_twice_of_absolute (BalanceWriter.isAbsolute_writes _ _) stored
  · have habsolute : (blockWrite block.header block.body).action.IsAbsolute := trivial
    exact WriteItem.applyAt_twice_of_absolute (List.forall_mem_singleton.2 habsolute) stored
  · exact applyAt_miniBlockWrites_twice _ _ hs id
  · rfl

end Indexer
end ChainIndex
