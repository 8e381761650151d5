import ChainIndex.Indexer.Basic
import ChainIndex.Proofs.Indexer.BlockWrites
import ChainIndex.Proofs.Indexer.Fanout

/-!
What saving a block makes of the documents that a revert takes back. On a usable store it succeeds,
and every document becomes what the block's writes to its index make of it.
-/
namespace ChainIndex

variable {s : Store}

/-- The indices that a revert takes documents from. -/
def Index.revertible : List String :=
  [Index.transactions, Index.operations, Index.scResults, Index.miniBlocks, Index.blocks, Index.balances]

namespace TokenWrites

/-- Token writes are found by reading only. -/
theorem gives_collections (acc : BlockAccumulators) (h : s.Usable) : ∃ x, (collections acc).Gives s x s := by
  unfold collections
  dsimp only
  split
  · exact ⟨_, StoreM.gives_pure _ s⟩
  · exact ⟨_, (StoreM.gives_multiGet h _ _).bind (StoreM.gives_pure _ s)⟩

theorem gives_propagateAll (types : List (String × String)) (h : s.Usable) :
    ∃ x, (propagateAll types).Gives s x s := by
  induction types with
  | nil => exact ⟨_, StoreM.gives_pure _ s⟩
  | cons e rest ih =>
    obtain ⟨items, hrest⟩ := ih
    have hfirst : (propagate e.1 e.2).Gives s _ s := (StoreM.gives_scroll h _ _).bind (StoreM.gives_pure _ s)
    exact ⟨_, hfirst.bind (hrest.bind (StoreM.gives_pure _ s))⟩

theorem gives_tokenWrites (acc : BlockAccumulators) (h : s.Usable) : ∃ x, (tokenWrites acc).Gives s x s := by
  obtain ⟨fields, hfields⟩ := gives_collections acc h
  obtain ⟨propagated, hpropagated⟩ := gives_propagateAll (newTypes acc) h
  exact ⟨_, hfields.bind (hpropagated.bind (StoreM.gives_pure _ s))⟩

end TokenWrites

namespace Indexer

variable (ix : Indexer) (block : Block)

def groups (tokens : List WriteItem) : Dict (List WriteItem) :=
  [(Index.transactions, (ix.recordWrites block).transactions),
    (Index.scResults, (ix.recordWrites block).scResults),
    (Index.operations, (ix.recordWrites block).operations), (Index.tokens, tokens),
    (Index.delegators, (ix.accumulate block).delegatorWrites),
    (Index.deploys, (ix.accumulate block).contractWrites),
    (Index.balances, (ix.balanceWriter block.header).writes block.accounts),
    (Index.blocks, [blockWrite block.header block.body]),
    (Index.miniBlocks, miniBlockWrites block.header block.body)]

theorem batch_eq_foldl (tokens : List WriteItem) :
    ix.batch block tokens = (ix.groups block tokens).foldl (fun b e => b.extend e.1 e.2) {} := rfl

theorem ordered_batch (tokens : List WriteItem) : (ix.batch block tokens).Ordered := by
  rw [batch_eq_foldl]
  exact List.foldlRecOn _ _ WriteBatch.ordered_empty fun _ hb e _ => hb.extend e.1 e.2

def writesTo (name : String) : List WriteItem := ((ix.groups block []).find? name).getD []

def written (name id : String) (stored : Option Value) : Option Value :=
  WriteItem.applyAt id (ix.writesTo block name) stored

theorem groups_find? (tokens : List WriteItem) {name : String} (hn : name ∈ Index.revertible) :
    ((ix.groups block tokens).find? name).getD [] = ix.writesTo block name := by
  simp only [Index.revertible, List.mem_cons, List.not_mem_nil, or_false] at hn
  rcases hn with rfl | rfl | rfl | rfl | rfl | rfl <;> rfl

theorem isFree_recordWrites : (∀ item ∈ (ix.recordWrites block).transactions, item.action.IsFree) ∧
    (∀ item ∈ (ix.recordWrites block).scResults, item.action.IsFree) ∧
    ∀ item ∈ (ix.recordWrites block).operations, item.action.IsFree := by
  unfold recordWrites CorrelatedBlock.writes
  refine ⟨?_, ?_, ?_⟩ <;> intro item hi
  · obtain ⟨e, -, rfl⟩ := List.mem_map.1 hi
    trivial
  · obtain ⟨r, -, rfl⟩ := List.mem_map.1 hi
    trivial
  · rcases List.mem_append.1 hi with hi | hi
    · obtain ⟨e, -, rfl⟩ := List.mem_map.1 hi
      trivial
    · obtain ⟨r, -, rfl⟩ := List.mem_map.1 hi
      trivial

theorem isFree_balances (w : BalanceWriter) (accounts : Dict AlteredAccount) :
    ∀ item ∈ w.writes accounts, item.action.IsFree := by
  intro item hi
  rcases w.action_of_mem_writes accounts hi with h | ⟨_, _, h⟩ <;> rw [h] <;> trivial

/-- Only tokens are written by updates of what is stored. -/
theorem isFree_writesTo {name : String} (hn : name ∈ Index.revertible) :
    ∀ item ∈ ix.writesTo block name, item.action.IsFree := by
  obtain ⟨htransactions, hresults, hoperations⟩ := ix.isFree_recordWrites block
  simp only [Index.revertible, List.mem_cons, List.not_mem_nil, or_false] at hn
  rcases hn with rfl | rfl | rfl | rfl | rfl | rfl
  · exact htransactions
  · exact hoperations
  · exact hresults
  · intro item hi
    obtain ⟨m, -, rfl⟩ := List.mem_map.1 hi
    trivial
  · intro item hi
    obtain rfl := List.mem_singleton.1 hi
    trivial
  · exact isFree_balances _ _

theorem nodup_keys_groups (tokens : List WriteItem) : (ix.groups block tokens).keys.Nodup := by
  change [Index.transactions, Index.scResults, Index.operations, Index.tokens, Index.delegators,
    Index.deploys, Index.balances, Index.blocks, Index.miniBlocks].Nodup
  decide

/-- The one write of a block to a document. -/
theorem get?_batch (tokens : List WriteItem) (name id : String) :
    (ix.batch block tokens).get? name id =
      WriteAction.combineAll (WriteItem.actionsOf id (((ix.groups block tokens).find? name).getD [])) := by
  rw [batch_eq_foldl, WriteBatch.get?_foldl_extend _ _ (ix.nodup_keys_groups block tokens)]
  rfl

/-- What a batch makes of a document does not depend on the writes of tokens. -/
theorem applyAt_batch (tokens : List WriteItem) {name : String} (hn : name ∈ Index.revertible) (id : String)
    (stored : Option Value) :
    (ix.batch block tokens).applyAt name id stored = ix.written block name id stored := by
  have hgroup := ix.groups_find? block tokens hn
  rw [batch_eq_foldl, WriteBatch.applyAt_foldl_extend (ix.nodup_keys_groups block tokens)
    (hgroup ▸ ix.isFree_writesTo block hn) (WriteBatch.free_empty name), hgroup]
  rfl

def saved (s : Store) : Store := (ix.saveBlock block s).2.2

/-- Saving a block succeeds on a usable store. -/
theorem saveBlock_spec (h : s.Usable) :
    (∃ report, (ix.saveBlock block s).1 = .ok report) ∧ (ix.saved block s).Usable ∧
      ∀ name ∈ Index.revertible, ∀ id,
        (ix.saved block s).get? name id = ix.written block name id (s.get? name id) := by
  obtain ⟨tokens, htokens⟩ := TokenWrites.gives_tokenWrites (ix.accumulate block) h
  obtain ⟨t, hflush, ht, hget⟩ :=
    Flush.run_flush ix.config.bulkLimit.toNat (ix.ordered_batch block tokens).distinct h
  obtain ⟨report, hrun⟩ : ∃ report, (ix.save block).run s = (.ok report, t) := by
    unfold save
    rw [Session.run_bind, htokens]
    exact ⟨_, hflush⟩
  have hsaved : ix.saved block s = t := by
    unfold saved saveBlock
    rw [hrun]
  rw [hsaved]
  refine ⟨⟨report, ?_⟩, ht, fun name hn id => ?_⟩
  · unfold saveBlock
    rw [hrun]
    rfl
  · rw [hget, ix.applyAt_batch block tokens hn]

theorem usable_saved (h : s.Usable) : (ix.saved block s).Usable :=
  (ix.saveBlock_spec block h).2.1

theorem get?_saved (h : s.Usable) {name : String} (hn : name ∈ Index.revertible) (id : String) :
    (ix.saved block s).get? name id = ix.written block name id (s.get? name id) :=
  (ix.saveBlock_spec block h).2.2 name hn id

end Indexer
end ChainIndex
