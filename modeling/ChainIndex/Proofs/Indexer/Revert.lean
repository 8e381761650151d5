import ChainIndex.Proofs.Indexer.Unwind

/-!
What reverting a block makes of every document. Documents that the body names go, and transactions that it
does not name lose what its results gave to them. An unavailable index stays as it is, and on a usable store
no step fails.
-/
namespace ChainIndex

variable {s t : Store} {down : List String}

namespace WriteItem

/-- Of deletes only those of the document count. -/
theorem applyAt_deletes (hashes : List String) (id : String) (stored : Option Value) :
    applyAt id (hashes.map fun hash => ⟨hash, .delete⟩) stored = if id ∈ hashes then none else stored := by
  induction hashes generalizing stored with
  | nil => rfl
  | cons hash rest ih =>
    rw [List.map_cons, applyAt_cons, ih]
    by_cases hh : hash = id
    · simp [hh, WriteAction.apply]
    · simp [hh, Ne.symm hh]

end WriteItem

namespace Rollback

structure Remains (d : Denomination) (header : Header) (body : Body) (s t : Store) : Prop where
  usable : t.Usable
  blocks : ∀ id, t.get? Index.blocks id = if header.hashHex = id then none else s.get? Index.blocks id
  miniBlocks : ∀ id, t.get? Index.miniBlocks id =
    WriteItem.applyAt id (miniBlockReverts header body) (s.get? Index.miniBlocks id)
  scResults : ∀ id, t.get? Index.scResults id =
    if id ∈ body.txHashes then none else s.get? Index.scResults id
  records : ∀ name ∈ [Index.transactions, Index.operations], ∀ id, t.get? name id =
    if id ∈ body.txHashes then none else unwoundAt d body.txHashes s id (s.get? name id)
  balances : ∀ id, t.get? Index.balances id =
    (s.get? Index.balances id).filter (!(Query.writtenByBlock header.timestamp header.shard).selects ·)

/-- The documents after a revert with some indices unavailable. Theirs stay. Without the results, the
transactions that they belong to are not unwound. -/
structure RemainsPartly (down : List String) (d : Denomination) (header : Header) (body : Body)
    (s t : Store) : Prop where
  usable : t.Usable
  failed : ∀ name ∈ down, ∀ id, t.get? name id = s.get? name id
  blocks : Index.blocks ∉ down → ∀ id,
    t.get? Index.blocks id = if header.hashHex = id then none else s.get? Index.blocks id
  miniBlocks : Index.miniBlocks ∉ down → ∀ id, t.get? Index.miniBlocks id =
    WriteItem.applyAt id (miniBlockReverts header body) (s.get? Index.miniBlocks id)
  scResults : Index.scResults ∉ down → ∀ id,
    t.get? Index.scResults id = if id ∈ body.txHashes then none else s.get? Index.scResults id
  records : ∀ name ∈ Index.records, name ∉ down → ∀ id, t.get? name id =
    if id ∈ body.txHashes then none
    else if Index.scResults ∈ down then s.get? name id
    else unwoundAt d body.txHashes s id (s.get? name id)
  balances : Index.balances ∉ down → ∀ id, t.get? Index.balances id =
    (s.get? Index.balances id).filter (!(Query.writtenByBlock header.timestamp header.shard).selects ·)

theorem RemainsPartly.remains {d : Denomination} {header : Header} {body : Body}
    (h : RemainsPartly [] d header body s t) : Remains d header body s t where
  usable := h.usable
  blocks := h.blocks List.not_mem_nil
  miniBlocks := h.miniBlocks List.not_mem_nil
  scResults := h.scResults List.not_mem_nil
  records name hn id := (h.records name hn List.not_mem_nil id).trans (by rw [if_neg List.not_mem_nil])
  balances := h.balances List.not_mem_nil

/-- The document of the block goes, and no other. -/
theorem gives_removeBlock (header : Header) (h : s.Usable) :
    ∃ t, (removeBlock header).Gives s () t ∧ ∀ name id, t.get? name id =
      if Index.blocks = name ∧ header.hashHex = id then none else s.get? name id := by
  refine ⟨_, StoreM.gives_bulkUpsert h _ _, fun name id => ?_⟩
  rw [Store.get?_upserted]
  by_cases hn : Index.blocks = name
  · by_cases hid : header.hashHex = id <;> simp [hn, hid, WriteAction.apply]
  · simp [hn]

/-- The balances that the block wrote go, and nothing else. -/
theorem gives_removeBalances (timestamp : UInt64) (shard : UInt32) (h : s.Usable) :
    ∃ t, (discard (removeBalances timestamp shard)).Gives s () t ∧ ∀ name id, t.get? name id =
      if Index.balances = name then
        (s.get? name id).filter (!(Query.writtenByBlock timestamp shard).selects ·)
      else s.get? name id := by
  have hdelete := StoreM.gives_deleteByQuery h Index.balances (.writtenByBlock timestamp shard)
  exact ⟨_, StoreM.Gives.bind hdelete (StoreM.gives_pure () _), h.get?_without _ _⟩

theorem gives_revertMiniBlocks (header : Header) (body : Body) (h : s.Usable) :
    ∃ t, (revertMiniBlocks header body).Gives s () t ∧ ∀ name id, t.get? name id =
      if Index.miniBlocks = name then WriteItem.applyAt id (miniBlockReverts header body) (s.get? name id)
      else s.get? name id :=
  gives_writeItems Index.miniBlocks (miniBlockReverts header body) h

theorem within_removeBlock (header : Header) : (removeBlock header).Within [Index.blocks] :=
  StoreM.within_bulkUpsert _ _

theorem within_revertMiniBlocks (header : Header) (body : Body) :
    (revertMiniBlocks header body).Within [Index.miniBlocks] :=
  within_writeItems Index.miniBlocks (miniBlockReverts header body)

theorem within_removeBalances (timestamp : UInt64) (shard : UInt32) :
    (discard (removeBalances timestamp shard)).Within [Index.balances] :=
  StoreM.Within.bind (StoreM.within_deleteByQuery _ _) fun _ => StoreM.within_pure ()

theorem within_removeTransactions (d : Denomination) (body : Body) :
    (removeTransactions d body).Within [Index.transactions, Index.scResults, Index.operations] := by
  unfold removeTransactions
  dsimp only
  split
  · exact StoreM.within_pure ()
  · refine Session.Within.bind (Session.within_all fun p hp => ?_) fun _ => trivial
    simp only [List.map_cons, List.map_nil, List.mem_cons, List.not_mem_nil, or_false] at hp
    rcases hp with rfl | rfl | rfl | rfl
    · exact within_unwindResults d _
    · exact (StoreM.within_bulkUpsert _ _).mono (by decide)
    · exact (StoreM.within_bulkUpsert _ _).mono (by decide)
    · exact (StoreM.within_bulkUpsert _ _).mono (by decide)

theorem succeeds_removeTransactions (d : Denomination) (body : Body) : (removeTransactions d body).Succeeds := by
  unfold removeTransactions
  dsimp only
  split
  · exact StoreM.succeeds_pure ()
  · refine StoreM.succeeds_all (unwindResults d body.txHashes ::
      [Index.transactions, Index.scResults, Index.operations].map fun index =>
        StoreM.bulkUpsert index (body.txHashes.map fun hash => ⟨hash, .delete⟩)) fun p hp => ?_
    rcases List.mem_cons.1 hp with rfl | hp
    · exact succeeds_unwindResults d _
    · obtain ⟨index, -, rfl⟩ := List.mem_map.1 hp
      exact StoreM.succeeds_bulkUpsert _ _

/-- Deletes by hash, in each of some indices that is available. -/
theorem get?_attempt_deletes (h : s.Usable) (indices hashes down : List String) (name id : String) :
    (Session.attempt (Session.all (indices.map fun index =>
      (StoreM.bulkUpsert index (hashes.map fun hash => ⟨hash, .delete⟩)).run)) down s).get? name id =
      if name ∈ indices ∧ name ∉ down ∧ id ∈ hashes then none else s.get? name id := by
  induction indices generalizing s with
  | nil => simp [Session.attempt_all h.available]
  | cons index rest ih =>
    have hfirst := Session.usable_attempt h
      (StoreM.bulkUpsert index (hashes.map fun hash => ⟨hash, .delete⟩)).run down
    rw [List.map_cons, Session.attempt_all_cons, ih hfirst,
      (StoreM.gives_bulkUpsert h _ _).get?_attempt (StoreM.within_bulkUpsert _ _) h, Store.get?_upserted,
      WriteItem.applyAt_deletes]
    by_cases hn : index = name
    · subst hn
      by_cases hd : index ∈ down <;> by_cases hid : id ∈ hashes <;> simp [hd, hid]
    · simp [hn, Ne.symm hn]

/-- What the body names goes from every available index, whether or not its results were unwound. -/
theorem get?_attempt_removeTransactions (d : Denomination) (body : Body) (h : s.Usable) (down : List String)
    (name id : String) :
    (Session.attempt (removeTransactions d body).run down s).get? name id =
      if name ∈ [Index.transactions, Index.scResults, Index.operations] ∧ name ∉ down ∧ id ∈ body.txHashes then none
      else if name ∈ Index.records ∧ name ∉ down ∧ Index.scResults ∉ down then
        unwoundAt d body.txHashes s id (s.get? name id)
      else s.get? name id := by
  unfold removeTransactions
  cases hempty : body.txHashes with
  | nil =>
    have hnone : (parents [] s).find? id = none := rfl
    refine (congrArg (·.get? name id) (Session.attempt_done h.available _ down)).trans ?_
    rw [unwoundAt, hnone]
    simp
  | cons hash rest =>
    have hunwound := Session.usable_attempt h (unwindResults d (hash :: rest)).run down
    simp only [List.isEmpty_cons, Bool.false_eq_true, ↓reduceIte]
    rw [ExceptT.run_mk]
    refine (congrArg (·.get? name id) (Session.attempt_bind_done _ firstError down s)).trans ?_
    rw [Session.attempt_all_cons, get?_attempt_deletes hunwound, get?_attempt_unwindResults d _ h]

/-- The store after a revert, step by step. -/
theorem attempt_revertBlock (d : Denomination) (header : Header) (body : Body) (h : s.Usable)
    (down : List String) :
    Session.attempt (revertBlock d header body) down s =
      (steps d header body).foldl (fun s e => Session.attempt e.2.run down s) s := by
  rw [revertBlock, Session.attempt_bind]
  apply Eq.trans
  · split <;> exact Session.attempt_done (Session.usable_attempt h _ down).available _ down
  · rw [Session.attempt_all h.available, List.foldl_map]
    exact congrArg (List.foldl · s _) (funext fun t => funext fun e => Session.attempt_bind_done _ _ down t)

/-- What remains after a revert, index by index, whichever of them are unavailable. -/
theorem remainsPartly (d : Denomination) (header : Header) (body : Body) (h : s.Usable) (down : List String) :
    RemainsPartly down d header body s (Session.attempt (revertBlock d header body) down s) := by
  obtain ⟨b, hb, hgetb⟩ := gives_removeBlock header h
  have hfirst := Session.usable_attempt h (removeBlock header).run down
  obtain ⟨m, hm, hgetm⟩ := gives_revertMiniBlocks header body hfirst
  have hsecond := Session.usable_attempt hfirst (revertMiniBlocks header body).run down
  have hthird := Session.usable_attempt hsecond (removeTransactions d body).run down
  obtain ⟨t, ht, hgett⟩ := gives_removeBalances header.timestamp header.shard hthird
  have hblocks := hb.get?_attempt (within_removeBlock header) h down
  have hminis := hm.get?_attempt (within_revertMiniBlocks header body) hfirst down
  have hrecords := get?_attempt_removeTransactions d body hsecond down
  have hbalances := ht.get?_attempt (within_removeBalances _ _) hthird down
  have hresults (id : String) : (Session.attempt (revertMiniBlocks header body).run down
      (Session.attempt (removeBlock header).run down s)).get? Index.scResults id = s.get? Index.scResults id := by
    simp +decide [hminis, hgetm, hblocks, hgetb]
  have hunwound := unwoundAt_congr h hsecond hresults d body.txHashes
  rw [attempt_revertBlock d header body h down]
  simp only [steps, List.foldl_cons, List.foldl_nil]
  constructor
  · exact Session.usable_attempt hthird _ down
  · intro name hn id
    simp [hbalances, hrecords, hminis, hblocks, hn]
  · intro hn id
    simp +decide [hbalances, hgett, hrecords, hminis, hgetm, hblocks, hgetb, hn]
  · intro hn id
    simp +decide [hbalances, hgett, hrecords, hminis, hgetm, hblocks, hgetb, hn]
  · intro hn id
    simp +decide [hbalances, hgett, hrecords, hminis, hgetm, hblocks, hgetb, hn]
  · intro name hname hn id
    simp only [Index.records, List.mem_cons, List.not_mem_nil, or_false] at hname
    rcases hname with rfl | rfl <;>
      simp +decide [hbalances, hgett, hrecords, hminis, hgetm, hblocks, hgetb, hn, hunwound]
  · intro hn id
    simp +decide [hbalances, hgett, hrecords, hminis, hgetm, hblocks, hgetb, hn]

theorem succeeds_steps (d : Denomination) (header : Header) (body : Body) :
    ∀ e ∈ steps d header body, e.2.Succeeds := by
  intro e he
  simp only [steps, List.mem_cons, List.not_mem_nil, or_false] at he
  rcases he with rfl | rfl | rfl | rfl
  · exact StoreM.succeeds_bulkUpsert _ _
  · exact succeeds_writeItems _ _
  · exact succeeds_removeTransactions d body
  · exact (StoreM.succeeds_deleteByQuery _ _).bind fun _ => StoreM.succeeds_pure ()

/-- As long as no call fails, no step does. -/
theorem ends_revertBlock (d : Denomination) (header : Header) (body : Body) :
    (revertBlock d header body).Ends fun outcome => outcome = .ok () := by
  have hstep : ∀ e ∈ steps d header body, Session.Ends (fun failure => failure = none)
      (e.2.run >>= fun outcome => Session.done (failureOf? e.1 outcome)) := by
    intro e he
    refine Session.Ends.bind (succeeds_steps d header body e he) fun outcome houtcome => ?_
    obtain ⟨x, rfl⟩ := houtcome
    rfl
  refine Session.Ends.bind (Session.ends_all (List.forall_mem_map.2 hstep)) fun failures hfailures => ?_
  have hnone : failures.filterMap id = [] := List.filterMap_eq_nil_iff.2 hfailures
  rw [hnone]
  rfl

/-- No step fails, and what remains is told for each index on its own. -/
theorem run_revertBlock (d : Denomination) (header : Header) (body : Body) (h : s.Usable) :
    ∃ t, (revertBlock d header body).run s = (.ok (), t) ∧ Remains d header body s t := by
  have hpartly := remainsPartly d header body h []
  have husable := Session.usable_run h (revertBlock d header body)
  rw [Session.attempt, h.withUnavailable_nil, husable.withUnavailable_nil] at hpartly
  exact ⟨_, Prod.ext ((ends_revertBlock d header body).run h) rfl, hpartly.remains⟩

end Rollback

namespace Indexer

def reverted (ix : Indexer) (header : Header) (body : Body) (s : Store) : Store :=
  (ix.revertBlock header body s).2.2

/-- Reverting a block succeeds on a usable store. -/
theorem revertBlock_spec (ix : Indexer) (header : Header) (body : Body) (h : s.Usable) :
    (ix.revertBlock header body s).1 = .ok () ∧
      Rollback.Remains ix.denomination header body s (ix.reverted header body s) := by
  obtain ⟨t, hrun, hremains⟩ := Rollback.run_revertBlock ix.denomination header body h
  have hreverted : ix.reverted header body s = t := by
    unfold reverted revertBlock
    rw [hrun]
  refine ⟨?_, hreverted ▸ hremains⟩
  unfold revertBlock
  rw [hrun]

end Indexer
end ChainIndex
