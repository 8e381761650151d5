import ChainIndex.Proofs.Indexer.Concurrent

/-!
A block that is saved while another is reverted. Every document has at most one write of the save to
come, so it is left as by one of the two after the other. What can go wrong is that the revert replaces
a transaction without a fee by what it read of it before the save, and that the save brings the first
result that remains.
-/
namespace ChainIndex

variable {s t : Store} {name id : String}

/-- Where no key comes twice, a document has one write at most. -/
theorem WriteItem.actionsOf_map {docs : Dict WriteAction} (hd : docs.keys.Nodup) (id : String) :
    actionsOf id (docs.map fun e => ⟨e.1, e.2⟩) = (docs.find? id).toList := by
  induction docs with
  | nil => rfl
  | cons e rest ih =>
    obtain ⟨key, v⟩ := e
    obtain ⟨hout, hrest⟩ := List.nodup_cons.1 hd
    have ih := ih hrest
    unfold actionsOf at ih ⊢
    rw [List.map_cons, List.filter_cons, Dict.find?]
    by_cases hk : key = id
    · subst hk
      rw [Dict.find?_eq_none_iff.2 hout] at ih
      simpa using ih
    · simpa [hk] using ih

namespace Flush

theorem sends_sendAll (name id index : String) (chunks : List (List WriteItem)) :
    (sendAll index chunks).Sends name id (fun _ => True)
      (if index = name then WriteItem.actionsOf id chunks.flatten else []) := by
  induction chunks with
  | nil =>
    rw [List.flatten_nil, show WriteItem.actionsOf id [] = [] from rfl, ite_self]
    exact StoreM.sends_pure trivial
  | cons chunk rest ih =>
    have hsend := (StoreM.sends_bulkUpsert name id index chunk).bind fun _ _ => ih
    refine Eq.subst (motive := fun actions => (sendAll index (chunk :: rest)).Sends name id _ actions) ?_ hsend
    by_cases hn : index = name
    · simp [hn, WriteItem.actionsOf]
    · simp [hn]

theorem sends_flushIndex (name id : String) (limit : Nat) (index : String) {docs : Dict WriteAction}
    (hd : docs.keys.Nodup) :
    (flushIndex limit index docs).Sends name id (fun _ => True)
      (if index = name then (docs.find? id).toList else []) := by
  have hall := sends_sendAll name id index (Bulk.ofList limit (docs.map fun e => ⟨e.1, e.2⟩)).chunks
  rw [Bulk.flatten_chunks_ofList, WriteItem.actionsOf_map hd] at hall
  have hlength (n : Nat) : (pure n : StoreM Nat).Sends name id (fun _ => True) [] :=
    StoreM.sends_pure trivial
  have hflush := hall.bind fun _ _ => hlength (Bulk.ofList limit (docs.map fun e => ⟨e.1, e.2⟩)).length
  rw [List.append_nil] at hflush
  exact hflush

/-- A flush sends one write to a document at most, that of its batch. -/
theorem sends_flushIndices (name id : String) (limit : Nat) {indices : Dict (Dict WriteAction)}
    (hn : indices.keys.Nodup) (hd : ∀ e ∈ indices, e.2.keys.Nodup) :
    (flushIndices limit indices).Sends name id (fun outcomes => ∀ e ∈ outcomes, ∃ n, e.2 = .ok n)
      ((indices.find? name).bind (·.find? id)).toList := by
  induction indices with
  | nil => exact ⟨rfl, nofun⟩
  | cons e rest ih =>
    obtain ⟨index, docs⟩ := e
    obtain ⟨hout, hrest⟩ := List.nodup_cons.1 hn
    obtain ⟨hdocs, hothers⟩ := List.forall_mem_cons.1 hd
    have hflush : Session.Sends name id (fun outcome => ∃ n, outcome.2 = .ok n)
        (if index = name then (docs.find? id).toList else []) (do
          let written ← (flushIndex limit index docs).run
          return (index, written)) :=
      Session.Sends.map (sends_flushIndex name id limit index hdocs) _
        fun outcome houtcome => houtcome.imp fun n hn => hn.1
    have hall := hflush.all_cons (ih hrest hothers)
    rw [flushIndices, List.map_cons]
    refine Eq.subst (motive := fun actions => Session.Sends name id _ actions _) ?_ hall
    rw [Dict.find?]
    by_cases he : index = name
    · subst he
      have hnone : Dict.find? rest index = none := Dict.find?_eq_none_iff.2 hout
      simp [hnone]
    · simp [he]

/-- A flush sends the writes of its batch, once each, and succeeds. -/
theorem sends_flush (name id : String) (limit : Nat) {b : WriteBatch} (hb : b.Distinct) :
    (flush limit b).Sends name id (fun outcome => ∃ r, outcome = .ok r) (b.get? name id).toList := by
  have hdocs : ∀ e ∈ b.indices, e.2.keys.Nodup := fun e he =>
    hb.documents e.1 e.2 (Dict.find?_of_mem hb.indices he)
  refine (sends_flushIndices name id limit hb.indices hdocs).map _ fun outcomes houtcomes => ?_
  rw [report, firstError_eq_ok_iff.2 (List.forall_mem_map.2 houtcomes)]
  exact ⟨_, rfl⟩

end Flush

namespace TokenWrites

theorem sends_collections (name id : String) (acc : BlockAccumulators) :
    (collections acc).Sends name id (fun _ => True) [] := by
  unfold collections
  dsimp only
  split
  · exact StoreM.sends_pure trivial
  · exact (StoreM.sends_multiGet name id _ _).bind fun _ _ => StoreM.sends_pure trivial

theorem sends_propagateAll (name id : String) (types : List (String × String)) :
    (propagateAll types).Sends name id (fun _ => True) [] := by
  induction types with
  | nil => exact StoreM.sends_pure trivial
  | cons e rest ih =>
    have hfirst : (propagate e.1 e.2).Sends name id (fun _ => True) [] :=
      (StoreM.sends_scroll name id _ _).bind fun _ _ => StoreM.sends_pure trivial
    exact hfirst.bind fun _ _ => ih.bind fun _ _ => StoreM.sends_pure trivial

/-- The look-ups of tokens write nothing. -/
theorem sends_tokenWrites (name id : String) (acc : BlockAccumulators) :
    (tokenWrites acc).Sends name id (fun _ => True) [] :=
  (sends_collections name id acc).bind fun _ _ =>
    (sends_propagateAll name id _).bind fun _ _ => StoreM.sends_pure trivial

end TokenWrites

namespace Indexer

variable (ix : Indexer) (block : Block)

/-- The store calls that save a block, with the indices flushed in the order that `arrange` gives to
the batch. -/
def saveInOrder (arrange : WriteBatch → WriteBatch) : Session (Except StoreError FlushReport) := do
  match ← (TokenWrites.tokenWrites (ix.accumulate block)).run with
  | .error e => return .error e
  | .ok tokens => Flush.flush ix.config.bulkLimit.toNat (arrange (ix.batch block tokens))

theorem save_eq_saveInOrder : ix.save block = ix.saveInOrder block fun b => b := rfl

/-- The one write of a block to a document of an index that a revert takes documents from. -/
def write? (name id : String) : Option WriteAction := (ix.batch block []).get? name id

theorem get?_batch_of_revertible (tokens : List WriteItem) {name : String} (hn : name ∈ Index.revertible)
    (id : String) : (ix.batch block tokens).get? name id = ix.write? block name id := by
  rw [write?, get?_batch, get?_batch, ix.groups_find? block tokens hn, ix.groups_find? block [] hn]

/-- The one write of a block to a document has the effect of all its writes there. -/
theorem apply_write? {name : String} (hn : name ∈ Index.revertible) (id : String) (stored : Option Value) :
    WriteAction.applyAll (ix.write? block name id).toList stored = ix.written block name id stored := by
  rw [← ix.applyAt_batch block [] hn, WriteBatch.applyAt, write?]
  cases (ix.batch block []).get? name id <;> rfl

/-- A save sends one write to a document at most, in whatever order its indices are flushed. -/
theorem sends_saveInOrder {arrange : WriteBatch → WriteBatch}
    (ha : ∀ b, (arrange b).indices.Perm b.indices) {name : String} (hn : name ∈ Index.revertible)
    (id : String) :
    (ix.saveInOrder block arrange).Sends name id (fun outcome => ∃ r, outcome = .ok r)
      (ix.write? block name id).toList := by
  refine Session.Sends.bind (TokenWrites.sends_tokenWrites name id _) fun outcome ⟨tokens, hok, _⟩ => ?_
  subst hok
  have hdistinct := (ix.ordered_batch block tokens).distinct
  have hflush := Flush.sends_flush name id ix.config.bulkLimit.toNat (hdistinct.of_perm (ha _))
  rw [hdistinct.get?_perm (ha _), ix.get?_batch_of_revertible block tokens hn] at hflush
  exact hflush

end Indexer

section Fee

variable {doc : Value}

namespace Fee

theorem isSome_get?_adjust (onFee : Amount → Amount) (onGas : UInt64 → UInt64) (d : Denomination)
    (h : (doc.get? feeField).isSome) : ((adjust onFee onGas d doc).get? feeField).isSome := by
  have hnum : feeNumField ≠ feeField := by decide
  have hgas : gasUsedField ≠ feeField := by decide
  unfold adjust
  dsimp only
  split <;> split <;> simp [setFee, Value.get?_set, hnum, hgas, h]

theorem get?_setRefunds (refunds : Dict Refund) :
    (setRefunds refunds doc).get? feeField = doc.get? feeField := by
  have hrefunds : refundsField ≠ feeField := by decide
  unfold setRefunds
  split
  · rw [Value.get?_eraseFields, if_neg hrefunds]
  · rw [Value.get?_set, if_neg hrefunds]

end Fee

theorem FeeWrite.isSome_get?_absolute (fee : Amount) (gasUsed : UInt64) (refunds : Dict Refund)
    (d : Denomination) (doc : Value) :
    (((absolute fee gasUsed refunds d).apply doc).get? Fee.feeField).isSome := by
  have hnum : Fee.feeNumField ≠ Fee.feeField := by decide
  have hgas : Fee.gasUsedField ≠ Fee.feeField := by decide
  have hrefunds : Fee.refundsField ≠ Fee.feeField := by decide
  simp only [apply]
  split <;> simp [Fee.setFee, Value.get?_set, hnum, hgas, hrefunds]

def Mutation.KeepsFee (m : Mutation) : Prop :=
  ∀ doc : Value, (doc.get? Fee.feeField).isSome → ((m.apply doc).get? Fee.feeField).isSome

namespace Mutation

theorem isSome_get?_applyAll {ms : List Mutation} (hms : ∀ m ∈ ms, m.KeepsFee)
    (h : (doc.get? Fee.feeField).isSome) : ((applyAll ms doc).get? Fee.feeField).isSome := by
  induction ms generalizing doc with
  | nil => exact h
  | cons m rest ih =>
    obtain ⟨hm, hrest⟩ := List.forall_mem_cons.1 hms
    exact ih hrest (hm doc h)

theorem keepsFee_merge {patch : Value} (hp : patch.IsFlat) : (merge patch).KeepsFee := by
  intro doc h
  rw [apply, Value.get?_merge hp, Option.isSome_or, h, Bool.or_true]

theorem keepsFee_mergeIfAbsent (patch : Value) : (mergeIfAbsent patch).KeepsFee := by
  intro doc h
  rw [apply, Value.get?_mergeAbsent, Option.isSome_or, h, Bool.true_or]

theorem keepsFee_latchStatus (signal : StatusInfo) : (latchStatus signal).KeepsFee := by
  intro doc h
  rwa [apply, get?_setStatus_of_not_mem _ doc (Fee.not_mem_fieldNames (by decide))]

theorem keepsFee_fee (write : FeeWrite) : (fee write).KeepsFee := by
  intro doc h
  have hrefunds : Fee.refundsField ≠ Fee.feeField := by decide
  cases write with
  | absolute fee gasUsed refunds d => exact FeeWrite.isSome_get?_absolute fee gasUsed refunds d doc
  | relativeAdjust hash refund d =>
    simp only [apply, FeeWrite.apply]
    split
    · exact h
    · refine Fee.isSome_get?_adjust _ _ d ?_
      rwa [Value.get?_set, if_neg hrefunds]
  | revertRefund hash d =>
    simp only [apply, FeeWrite.apply]
    split
    · refine Fee.isSome_get?_adjust _ _ d ?_
      rwa [Fee.get?_setRefunds]
    · exact h

theorem keepsFee_typing (name : String) : ∀ m ∈ Indexer.typing name, m.KeepsFee := by
  intro m hm
  unfold Indexer.typing at hm
  split at hm
  · rw [List.mem_singleton.1 hm]
    exact keepsFee_merge (Value.isFlat_record_singleton _ _ rfl)
  · cases hm

end Mutation

/-- What a block writes to a transaction that it holds never removes the fee. -/
theorem CorrelatedTx.keepsFee (tx : CorrelatedTx) : ∀ m ∈ tx.mutations, m.KeepsFee := by
  intro m hm
  unfold mutations at hm
  dsimp only at hm
  rcases List.mem_append.1 hm with hm | hm
  · split at hm
    · simp only [List.mem_cons, List.not_mem_nil, or_false] at hm
      rcases hm with rfl | rfl | rfl
      · exact Mutation.keepsFee_merge tx.record.isFlat_toValue
      · exact Mutation.keepsFee_fee _
      · exact Mutation.keepsFee_latchStatus _
    · simp only [List.mem_cons, List.not_mem_nil, or_false] at hm
      rcases hm with rfl | rfl | rfl
      · exact Mutation.keepsFee_mergeIfAbsent _
      · exact Mutation.keepsFee_fee _
      · exact Mutation.keepsFee_mergeIfAbsent _
  · obtain ⟨signal, -, rfl⟩ := List.mem_map.1 hm
    exact Mutation.keepsFee_latchStatus signal

/-- A transaction that a block holds has a fee afterwards. -/
theorem CorrelatedTx.isSome_get?_fee (tx : CorrelatedTx) {fee : Amount} {gasUsed : UInt64}
    {refunds : Dict Refund} {d : Denomination} (hfee : tx.fee = .absolute fee gasUsed refunds d) :
    ((Mutation.applyAll tx.mutations doc).get? Fee.feeField).isSome := by
  obtain ⟨first, rest, hms⟩ : ∃ first rest, tx.mutations = first :: .fee tx.fee :: rest := by
    unfold mutations
    dsimp only
    split
    · exact ⟨_, _, rfl⟩
    · exact ⟨_, _, rfl⟩
  have hrest : ∀ m ∈ rest, m.KeepsFee := fun m hm =>
    tx.keepsFee m (hms ▸ List.mem_cons_of_mem _ (List.mem_cons_of_mem _ hm))
  rw [hms, Mutation.applyAll_cons, Mutation.applyAll_cons, hfee]
  exact Mutation.isSome_get?_applyAll hrest (FeeWrite.isSome_get?_absolute fee gasUsed refunds d _)

theorem ForeignUpdate.keepsFee (u : ForeignUpdate) (d : Denomination) : ∀ m ∈ u.mutations d, m.KeepsFee := by
  intro m hm
  rw [mutations_eq, List.mem_append, List.mem_append] at hm
  rcases hm with (hm | hm) | hm
  · split at hm
    · rw [List.mem_singleton.1 hm]
      exact Mutation.keepsFee_merge (Value.isFlat_record_singleton _ _ rfl)
    · cases hm
  · obtain ⟨e, -, rfl⟩ := List.mem_map.1 hm
    exact Mutation.keepsFee_fee _
  · obtain ⟨signal, -, rfl⟩ := List.mem_map.1 hm
    exact Mutation.keepsFee_latchStatus signal

/-- What a block makes of a transaction with a fee has a fee, or it is the operation of a result. -/
theorem Indexer.recordAfter_of_fee (ix : Indexer) (block : Block) (h : (doc.get? Fee.feeField).isSome)
    {after : Value} (ha : ix.recordAfter block name id (some doc) = some after) :
    (after.get? Fee.feeField).isSome ∨
      (block.pool.scResults.find? id).isSome ∧ (after.get? Rollback.originTxHash).isSome := by
  rcases ix.recordAfter_cases block ha with
    ⟨result, info, -, hi, hr, rfl⟩ | ⟨info, -, rfl⟩ | ⟨-, rfl⟩ | ⟨hsame, -⟩
  · obtain ⟨named, hnamed, horigin⟩ := ix.get?_resultDocument block hi
    obtain rfl := Option.some.inj (hnamed.symm.trans hr)
    refine .inr ⟨Option.isSome_of_eq_some hi, ?_⟩
    rw [Value.get?_set, if_neg (by decide), horigin]
    rfl
  · refine .inl (Mutation.isSome_get?_applyAll (fun m hm => ?_) h)
    rcases List.mem_append.1 hm with hm | hm
    · exact (ix.heldTx block id info).keepsFee m hm
    · exact Mutation.keepsFee_typing name m hm
  · refine .inl (Mutation.isSome_get?_applyAll (fun m hm => ?_) h)
    rcases List.mem_append.1 hm with hm | hm
    · exact (ix.foreignUpdate block id).keepsFee _ m hm
    · exact Mutation.keepsFee_typing name m hm
  · obtain rfl := Option.some.inj hsame
    exact .inl h

/-- It is unwound in place, and not removed. -/
theorem Rollback.unwound_of_fee {after : Value}
    (h : (after.get? Fee.feeField).isSome ∨ (after.get? originTxHash).isSome) (d : Denomination)
    (results : List String) (others : Bool) :
    unwound (unwindMutations d results others) (some after) =
      some (Mutation.applyAll (unwindMutations d results others) after) := by
  rw [unwound, if_pos]
  rcases h with hfee | horigin
  · rw [hfee, Bool.true_or]
  · have hkept : (Mutation.applyAll (unwindMutations d results others) after).get? originTxHash =
        after.get? originTxHash := by
      rw [get?_unwindMutations d results others after (by decide), if_neg fun h => absurd h.2 (by decide)]
    have hfilled : isBarePlaceholder (Mutation.applyAll (unwindMutations d results others) after) = false := by
      refine Bool.eq_false_iff.2 fun hbare => ?_
      rw [get?_of_isBarePlaceholder hbare (by decide)] at hkept
      rw [← hkept] at horigin
      cases horigin
    rw [hfilled, Bool.not_false, Bool.or_true]

end Fee

namespace Indexer

variable (ix : Indexer) {block : Block}

/-- A block that holds a transaction leaves it with a fee. -/
theorem fee_of_saved_held (hs : s.Usable) (hb : block.Ordered) (hn : name ∈ Index.records) {info : TxInfo}
    (hheld : block.pool.transactions.find? id = some info) (hresult : block.pool.scResults.find? id = none) :
    ∃ doc, (ix.saved block s).get? name id = some doc ∧ (doc.get? Fee.feeField).isSome := by
  refine ⟨_, (ix.get?_saved_records block hs hb hn id).trans (ix.recordAfter_of_held block hheld hresult _ _), ?_⟩
  have hcharge : (ix.heldTx block id info).fee = ix.correlator.absoluteFee info (block.pool.refundsOf id) := rfl
  rw [Mutation.applyAll_append]
  exact Mutation.isSome_get?_applyAll (Mutation.keepsFee_typing name)
    (CorrelatedTx.isSome_get?_fee _ (hcharge.trans (ix.correlator.absoluteFee_eq info _)))

/-- A block without results of the hashes, whose results are new or name the same transactions as when
they were stored before, leaves alone what a revert finds of a transaction, unless it brings the first
result that remains. -/
theorem apart_saved (hs : s.Usable) (hb : block.Ordered) {hashes : List String}
    (hout : ∀ hash ∈ hashes, block.pool.scResults.find? hash = none)
    (hsame : ∀ hash info, block.pool.scResults.find? hash = some info →
      ∀ origin, Rollback.originOf (s.get? Index.scResults hash) = some origin → info.result.originHash = origin)
    (hothers : id ∉ block.pool.origins ∨ Rollback.others hashes s id = true) :
    Rollback.Apart hashes id s (ix.saved block s) := by
  have hnew {hash : String} {info : ScResultInfo} (hi : block.pool.scResults.find? hash = some info) :
      Rollback.originOf ((ix.saved block s).get? Index.scResults hash) = some info.result.originHash := by
    rw [Rollback.originOf_saved ix hs hb, hi]
    rfl
  have hold {hash : String} (hi : block.pool.scResults.find? hash = none) :
      Rollback.originOf ((ix.saved block s).get? Index.scResults hash) =
        Rollback.originOf (s.get? Index.scResults hash) := by
    rw [Rollback.originOf_saved ix hs hb, hi]
    rfl
  have hkept (hash : String) (ho : Rollback.originOf (s.get? Index.scResults hash) = some id) :
      Rollback.originOf ((ix.saved block s).get? Index.scResults hash) = some id := by
    cases hi : block.pool.scResults.find? hash with
    | none => rwa [hold hi]
    | some info => rw [hnew hi, hsame hash info hi id ho]
  refine ⟨fun hash hm => by rw [hold (hout hash hm)], fun _ => hkept, fun _ => Bool.eq_iff_iff.2 ?_⟩
  rw [Rollback.others_eq_true_iff (ix.usable_saved block hs)]
  constructor
  · rintro ⟨hash, hm, ho⟩
    refine hothers.elim (fun hno => ?_) fun h => h
    cases hi : block.pool.scResults.find? hash with
    | none => exact (Rollback.others_eq_true_iff hs).2 ⟨hash, hm, by rwa [← hold hi]⟩
    | some info =>
      rw [hnew hi] at ho
      exact absurd ((mem_origins_iff hb).2 ⟨hash, info, hi, Option.some.inj ho⟩) hno
  · intro h
    obtain ⟨hash, hm, ho⟩ := (Rollback.others_eq_true_iff hs).1 h
    exact ⟨hash, hm, hkept hash ho⟩

/-- Whether a document is safe from a revert during a save: it is reverted anyway, or the revert finds
the same of its results before and after the save, and where it finds any, the save does not write the
document or the document has a fee or is absent. -/
def Settled (block : Block) (hashes : List String) (s : Store) (name id : String) : Prop :=
  id ∈ hashes ∨ Rollback.Apart hashes id s (ix.saved block s) ∧
    (Rollback.resultsOf hashes s id = [] ∨ ix.write? block name id = none ∨
      ∀ doc, s.get? name id = some doc → (doc.get? Fee.feeField).isSome)

/-- What a revert decided on a settled document holds although the save writes the document since. -/
theorem tolerates_of_settled (hb : block.Ordered) (hn : name ∈ Index.records)
    {hashes : List String} (h : ix.Settled block hashes s name id) (d : Denomination) {results : List String}
    (hf : (Rollback.parents hashes s).find? id = some results) :
    Rollback.Tolerates id (ix.write? block name id).toList (s.get? name id)
      (Rollback.unwindMutations d results (Rollback.others hashes s id)) := by
  rw [Rollback.find?_parents] at hf
  obtain ⟨hid, hne⟩ : id ∉ hashes ∧ Rollback.resultsOf hashes s id ≠ [] :=
    not_or.1 fun hor => by simp only [if_pos hor, reduceCtorEq] at hf
  obtain hin | ⟨-, hnil | hunwritten | hfee⟩ := h
  · exact absurd hin hid
  · exact absurd hnil hne
  · rw [hunwritten]
    exact Rollback.tolerates_nil _ _
  · cases hdoc : s.get? name id with
    | none => exact Rollback.tolerates_none _ _
    | some doc =>
      refine Rollback.tolerates_of_fee (hfee doc hdoc) ?_
      rw [ix.apply_write? block (Index.mem_revertible_of_mem_records hn), ix.written_records block hb hn]
      cases hwritten : ix.recordAfter block name id (some doc) with
      | none => rfl
      | some written =>
        have hkept := ix.recordAfter_of_fee block (hfee doc hdoc) hwritten
        exact Rollback.unwound_of_fee (hkept.imp_right And.right) d results _

/-- A block is reverted while another one is saved, its indices in any order. Transactions and operations
that are settled are left as by the revert and then the save, or as by the save and then the revert. -/
theorem revert_amid_save (other : Indexer) (header : Header) {body : Body} (hs : s.Usable)
    (hb : block.Ordered) {arrange : WriteBatch → WriteBatch} (ha : ∀ b, (arrange b).indices.Perm b.indices)
    {reverting : Except RollbackError Unit} {saving : Except StoreError FlushReport}
    (h : Session.Interleaved (Rollback.revertBlock ix.denomination header body)
      (other.saveInOrder block arrange) s reverting saving t) :
    ∀ name ∈ Index.records, ∀ id, other.Settled block body.txHashes s name id →
      t.get? name id = (other.saved block (ix.reverted header body s)).get? name id ∨
        t.get? name id = (ix.reverted header body (other.saved block s)).get? name id := by
  intro name hn id hsettled
  have hr := Index.mem_revertible_of_mem_records hn
  have hscr : Index.scResults ∈ Index.revertible := by decide
  let post (outcome : Except StoreError FlushReport) : Prop := ∃ report, outcome = .ok report
  let writes (name id : String) : List WriteAction := (other.write? block name id).toList
  have hone (name id : String) : (writes name id).length ≤ 1 := Option.length_toList_le
  have hafter {name : String} (hn : name ∈ Index.revertible) (id : String) :
      (other.saved block s).get? name id = WriteAction.applyAll (writes name id) (s.get? name id) := by
    rw [other.get?_saved block hs hn, other.apply_write? block hn]
  have hstart {name : String} (hn : name ∈ Index.revertible) (id : String) :
      Session.Underway name id post (writes name id) (s.get? name id) (other.saveInOrder block arrange) s :=
    ⟨hs, .inl ⟨other.sends_saveInOrder block ha hn id, rfl⟩⟩
  have hfinds : ∀ u, u.Usable → Rollback.Between s (other.saved block s) u →
      Rollback.FindsAlike body.txHashes id s u := by
    intro u hu hbetween
    obtain hin | ⟨hapart, -⟩ := hsettled
    · exact Rollback.findsAlike_of_mem hin s u
    · exact hapart.findsAlike hs (other.usable_saved block hs) hu hbetween
  have hlate (found : List String) (hfound : (Rollback.parents body.txHashes s).find? id = some found) :=
    other.tolerates_of_settled hb hn hsettled ix.denomination hfound
  have hmeets : Session.Meets (Rollback.Midway post (writes Index.scResults) name id (writes name id) s) _ _ :=
    Rollback.meets_revertBlock (hone Index.scResults) (hone name id) (hafter hscr) hn hfinds hlate header
  have hdone := hmeets _ _ _ _ _ ⟨hstart hscr, hstart hr id⟩ h
  obtain ⟨-, hreverted⟩ := ix.revertBlock_spec header body hs
  obtain ⟨-, hagain⟩ := ix.revertBlock_spec header body (other.usable_saved block hs)
  obtain hfirst | hlast := hdone
  · obtain ⟨-, hdoc⟩ := hfirst.ended
    rw [hdoc, other.get?_saved block hreverted.usable hr, hreverted.records name hn, other.apply_write? block hr]
    exact .inl rfl
  · obtain ⟨-, hdoc⟩ := hlast.ended
    have hread := (hfinds _ (other.usable_saved block hs) fun hash => .inr rfl).unwoundAt_eq ix.denomination
    rw [hdoc, hagain.records name hn, hread, hafter hr]
    exact .inr rfl

/-- A refund is reverted while the refunded transaction is saved once more. The save comes when the revert
has read the transaction and not yet written it. -/
theorem revert_amid_save_refund :
    let ix : Indexer := {}
    let info : TxInfo :=
      { transaction := { gasLimit := 50000 }, feeInfo := { initialPaidFee := ⟨1000000, by decide⟩ } }
    let refund : ScResultInfo :=
      { result := { originTxHash := [0xaa] }, feeInfo := { fee := ⟨100000, by decide⟩, gasRefunded := 5000 } }
    let first : Block :=
      { header := { hash := [1] }, body := ⟨[{ hash := [0x4d], txHashes := [[0xaa]] }]⟩
        pool := { transactions := [("aa", info)] } }
    let second : Block :=
      { header := { hash := [2] }, body := ⟨[{ hash := [0x5c], kind := .scResults, txHashes := [[0xb1]] }]⟩
        pool := { scResults := [("b1", refund)] } }
    let third : Block := { first with header := { hash := [3] } }
    let s := ix.saved second (ix.saved first (Store.withPageSize 10))
    let revert := Rollback.revertBlock ix.denomination second.header second.body
    let save := ix.saveInOrder third fun b => ⟨b.indices.reverse⟩
    let read := revert.steps s 5
    let t := (read.2.run (save.run read.1).2).2
    Session.Interleaved revert save s (read.2.run (save.run read.1).2).1 (save.run read.1).1 t ∧
      ∀ name ∈ Index.records, ∀ id,
        t.get? name id = (ix.saved third (ix.reverted second.header second.body s)).get? name id ∨
          t.get? name id = (ix.reverted second.header second.body (ix.saved third s)).get? name id := by
  intro ix info refund first second third s revert save read t
  have hfirst : first.Ordered := ⟨by simp [first, Dict.Sorted], by simp [first, Dict.Sorted]⟩
  have hsecond : second.Ordered := ⟨by simp [second, Dict.Sorted], by simp [second, Dict.Sorted]⟩
  have hthird : third.Ordered := ⟨hfirst.transactions, hfirst.scResults⟩
  have hone := ix.usable_saved first (Store.usable_withPageSize 10)
  have hs : s.Usable := ix.usable_saved second hone
  have hhash : second.body.txHashes = ["b1"] := by decide
  have hamid : Session.Interleaved revert save s (read.2.run (save.run read.1).2).1 (save.run read.1).1 t :=
    (Session.reaches_steps 5 revert s).amid (Session.amid_after read.2 save read.1)
  have hnone (hash : String) : third.pool.scResults.find? hash = none := rfl
  have horigin : Rollback.originOf (s.get? Index.scResults "b1") = some "aa" := by
    have hheld : second.pool.scResults.find? "b1" = some refund := rfl
    obtain ⟨doc, hdoc, hnames⟩ := ix.get?_resultDocument second hheld
    rw [ix.get?_saved_scResults second hone hsecond, hdoc, Option.some_or, Rollback.originOf,
      Option.bind_some, hnames]
    decide
  have hfee (name : String) (hn : name ∈ Index.records) (doc : Value) (hdoc : s.get? name "aa" = some doc) :
      (doc.get? Fee.feeField).isSome := by
    obtain ⟨held, hheld, hfee⟩ := ix.fee_of_saved_held (Store.usable_withPageSize 10) hfirst hn
      (rfl : first.pool.transactions.find? "aa" = some info) rfl
    rw [ix.get?_saved_records second hone hsecond hn, hheld] at hdoc
    exact (ix.recordAfter_of_fee second hfee hdoc).resolve_right fun h => absurd h.1 (by decide)
  refine ⟨hamid, fun name hn id => ?_⟩
  clear_value t
  refine ix.revert_amid_save ix second.header hs hthird (fun b => List.reverse_perm _) hamid name hn id
    (.inr ⟨?_, ?_⟩)
  · refine ix.apart_saved hs hthird (fun hash _ => hnone hash) (fun hash info hi => ?_) (.inl List.not_mem_nil)
    rw [hnone] at hi
    cases hi
  · rw [hhash]
    by_cases hid : id = "aa"
    · exact .inr (.inr (hid ▸ hfee name hn))
    · refine .inl (List.filter_eq_nil_iff.2 fun hash hm ho => hid ?_)
      rw [List.mem_singleton.1 hm, horigin] at ho
      simpa [eq_comm] using ho

end Indexer

end ChainIndex
