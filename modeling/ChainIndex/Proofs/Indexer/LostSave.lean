import ChainIndex.Proofs.Indexer.Race
import ChainIndex.Proofs.Indexer.Undo

/-!
How a save is lost. A revert replaces a transaction without a fee by what it makes of the document that it
has read, or removes it. Whatever another procedure writes to that document in between is gone.
-/
namespace ChainIndex

variable {s : Store} {name id : String} {doc : Value}

namespace Rollback

/-- A document without a fee is replaced or removed as it was read. -/
theorem unwoundLate_of_no_fee (hfee : doc.get? Fee.feeField = none) (ms : List Mutation) (current : Option Value) :
    unwoundLate id ms (some doc) current = unwound ms (some doc) := by
  simp only [unwoundLate, unwindItem?, unwound, hfee, Option.isSome_none, Bool.false_eq_true, ↓reduceIte,
    Bool.false_or]
  cases isBarePlaceholder (Mutation.applyAll ms doc) <;> rfl

/-- A step of a revert, with what it reports. -/
def reported (step : RollbackStep) (procedure : StoreM Unit) : Session (Option (RollbackStep × StoreError)) := do
  let outcome ← procedure.run
  return failureOf? step outcome

theorem within_reported (step : RollbackStep) {procedure : StoreM Unit} {names : List String}
    (h : procedure.Within names) : (reported step procedure).Within names :=
  Session.Within.bind h fun _ => Session.within_pure _

/-- What a revert does before it reads any transaction. -/
def firstSteps (header : Header) (body : Body) : List (Session (Option (RollbackStep × StoreError))) :=
  [reported .block (removeBlock header), reported .miniBlocks (revertMiniBlocks header body)]

theorem within_firstSteps (header : Header) (body : Body) :
    (Session.all (firstSteps header body)).Within [Index.blocks, Index.miniBlocks] := by
  refine Session.within_all fun p hp => ?_
  simp only [firstSteps, List.mem_cons, List.not_mem_nil, or_false] at hp
  rcases hp with rfl | rfl
  · exact (within_reported .block (within_removeBlock header)).mono (by decide)
  · exact (within_reported .miniBlocks (within_revertMiniBlocks header body)).mono (by decide)

section Decides

variable (hfee : doc.get? Fee.feeField = none)
include hfee

/-- With the read of the documents it is decided what becomes of this one. -/
theorem decides_unwindParents (hs : s.Usable) (hdoc : s.get? name id = some doc) {changes : Dict (List Mutation)}
    (hn : changes.keys.Nodup) {ms : List Mutation} (hms : changes.find? id = some ms) :
    Session.Decides name id (unwound ms (some doc)) (unwindParents name changes).run s := by
  refine (StoreM.gives_multiGet hs name changes.keys).decides ⟨_, s, .refl _ _, fun t ht => ?_⟩
  have hitems : (changes.zip (changes.keys.map (s.get? name))).filterMap (fun e => unwindItem? e.1.1 e.1.2 e.2) =
      changes.filterMap fun e => unwindItem? e.1 e.2 (s.get? name e.1) := filterMap_zip_keys _ _ _
  obtain ⟨u, hu, hget⟩ := gives_writeItems name (changes.filterMap fun e => unwindItem? e.1 e.2 (s.get? name e.1)) ht
  rw [← hitems] at hu
  refine (congrArg (fun outcome => outcome.2.get? name id) hu).trans ?_
  rw [hget, if_pos rfl, applyAt_unwindItems_late hn, hms, hdoc]
  exact unwoundLate_of_no_fee hfee ms _

/-- Each of the two indices is read and written on its own. -/
theorem decides_unwindRecords (hs : s.Usable) (hn : name ∈ Index.records) (hdoc : s.get? name id = some doc)
    {changes : Dict (List Mutation)} (hkeys : changes.keys.Nodup) {ms : List Mutation}
    (hms : changes.find? id = some ms) :
    Session.Decides name id (unwound ms (some doc))
      (Session.all [(unwindParents Index.transactions changes).run, (unwindParents Index.operations changes).run]) s := by
  simp only [Index.records, List.mem_cons, List.not_mem_nil, or_false] at hn
  rcases hn with rfl | rfl
  · refine (decides_unwindParents hfee hs hdoc hkeys hms).all_cons (List.forall_mem_singleton.2 ?_)
    exact (within_unwindParents Index.operations changes).spares (by decide)
  · have hother := within_unwindParents Index.transactions changes
    have hsame := hother.get?_run (by decide : Index.operations ∉ _) s id
    refine Session.decides_all_cons ?_
    exact (decides_unwindParents hfee (Session.usable_run hs _) (hsame.trans hdoc) hkeys hms).all_cons (List.forall_mem_nil _)

variable {d : Denomination} {hashes results : List String} (hfound : (parents hashes s).find? id = some results)
include hfound

theorem decides_unwindResults (hs : s.Usable) (hn : name ∈ Index.records) (hdoc : s.get? name id = some doc) :
    Session.Decides name id (unwoundAt d hashes s id (some doc)) (unwindResults d hashes).run s := by
  have hunwinds := gives_unwinds d hashes (parents hashes s) hs
  have hkeys := nodup_keys_unwinding d hashes s
  have hms := find?_unwinding d hashes s id
  rw [hfound, Option.map_some] at hms
  have hafter : unwoundAt d hashes s id (some doc) =
      unwound (unwindMutations d results (others hashes s id)) (some doc) := by
    rw [unwoundAt, hfound]
  rw [hafter]
  refine (StoreM.gives_multiGet hs Index.scResults hashes).decides ?_
  have hparents : resultsByParent hashes (hashes.map (s.get? Index.scResults)) = parents hashes s := rfl
  rw [hparents]
  unfold unwinding at *
  cases hgroups : parents hashes s with
  | nil =>
    rw [hgroups] at hfound
    cases hfound
  | cons e rest =>
    rw [hgroups] at hunwinds hkeys hms
    refine hunwinds.decides ?_
    exact (decides_unwindRecords hfee hs hn hdoc hkeys hms).bind fun _ => Session.spares_done _

omit hfee hfound in
theorem spares_deletes (hid : id ∉ hashes) (index : String) :
    Session.Spares name id (StoreM.bulkUpsert index (hashes.map fun hash => ⟨hash, .delete⟩)).run := by
  intro t ht
  refine (congrArg (fun outcome => outcome.2.get? name id) (StoreM.gives_bulkUpsert ht index _)).trans ?_
  rw [Store.get?_upserted, WriteItem.applyAt_deletes, if_neg hid, ite_self]

omit hfound in
theorem decides_removeTransactions {body : Body} (hs : s.Usable) (hn : name ∈ Index.records)
    (hdoc : s.get? name id = some doc) (hfound : (parents body.txHashes s).find? id = some results)
    (hid : id ∉ body.txHashes) :
    Session.Decides name id (unwoundAt d body.txHashes s id (some doc)) (removeTransactions d body).run s := by
  unfold removeTransactions
  generalize body.txHashes = hashes at *
  cases hashes with
  | nil => cases hfound
  | cons hash rest =>
    have hunwound : Session.Decides name id _ (unwindResults d (hash :: rest)).run s :=
      decides_unwindResults hfee hfound hs hn hdoc
    refine Session.Decides.bind (hunwound.all_cons (List.forall_mem_map.2 fun index _ => ?_)) fun _ =>
      Session.spares_done _
    exact spares_deletes hid index

omit hfound in
/-- The revert decides what becomes of the document when it reads it, after the block and the miniblocks are gone. -/
theorem decides_revertBlock (header : Header) {body : Body} (hs : s.Usable) (hn : name ∈ Index.records)
    (hdoc : s.get? name id = some doc) (hfound : (parents body.txHashes s).find? id = some results)
    (hid : id ∉ body.txHashes) :
    Session.Decides name id (unwoundAt d body.txHashes s id (some doc)) (revertBlock d header body) s := by
  have hfirst := within_firstSteps header body
  obtain ⟨hrecord, hbalances⟩ : name ∉ [Index.blocks, Index.miniBlocks] ∧ name ∉ [Index.balances] := by
    simp only [Index.records, List.mem_cons, List.not_mem_nil, or_false] at hn
    rcases hn with rfl | rfl <;> decide
  have hu := Session.usable_run hs (Session.all (firstSteps header body))
  have hresults (id : String) := hfirst.get?_run (by decide : Index.scResults ∉ _) s id
  have hparents : parents body.txHashes ((Session.all (firstSteps header body)).run s).2 =
      parents body.txHashes s := by
    unfold parents
    rw [funext hresults]
  have hthird := decides_removeTransactions hfee hu hn ((hfirst.get?_run hrecord s id).trans hdoc)
    (hparents ▸ hfound) hid (d := d)
  rw [unwoundAt_congr hs hu hresults] at hthird
  have hreported : Session.Decides name id _ (reported .transactions (removeTransactions d body)) _ :=
    Session.Decides.bind hthird fun _ => Session.spares_done _
  have hlast : Session.Spares name id (reported .balances _) :=
    (within_reported .balances (within_removeBalances header.timestamp header.shard)).spares hbalances
  have hall := Session.decides_all hreported (List.forall_mem_singleton.2 hlast)
  refine Session.Decides.bind hall fun failures => ?_
  split <;> exact Session.spares_done _

end Decides
end Rollback

namespace Indexer

variable (ix : Indexer) {block : Block} {body : Body}

/-- When a revert changes a transaction without a fee, another procedure that runs between its read and its
write leaves no trace in the document. -/
theorem revert_overwrites {β : Type} {q : Session β} {post : β → Prop} (header : Header) (hs : s.Usable)
    (hn : name ∈ Index.records) (hdoc : s.get? name id = some doc) (hfee : doc.get? Fee.feeField = none)
    (hid : id ∉ body.txHashes) (hchanged : (ix.reverted header body s).get? name id ≠ some doc)
    (hq : q.Ends post) :
    ∃ y t, Session.Interleaved (Rollback.revertBlock ix.denomination header body) q s (.ok ()) y t ∧ post y ∧
      t.get? name id = (ix.reverted header body s).get? name id := by
  obtain ⟨-, hremains⟩ := ix.revertBlock_spec header body hs
  have hrecord := hremains.records name hn id
  rw [if_neg hid, hdoc] at hrecord
  cases hfound : (Rollback.parents body.txHashes s).find? id with
  | none =>
    rw [Rollback.unwoundAt, hfound] at hrecord
    exact absurd hrecord hchanged
  | some results =>
    have hdecides : Session.Decides name id _ (Rollback.revertBlock ix.denomination header body) s :=
      Rollback.decides_revertBlock hfee header hs hn hdoc hfound hid
    obtain ⟨x, y, t, hamid, rfl, hy, hget⟩ :=
      hdecides.interleaved hs (Rollback.ends_revertBlock ix.denomination header body) hq
    exact ⟨y, t, hamid, hy, hget.trans hrecord.symm⟩

/-- What a revert removes has no fee. -/
theorem get?_fee_of_reverted (header : Header) (hs : s.Usable) (hn : name ∈ Index.records)
    (hid : id ∉ body.txHashes) (hdoc : s.get? name id = some doc)
    (hgone : (ix.reverted header body s).get? name id = none) : doc.get? Fee.feeField = none := by
  obtain ⟨-, hremains⟩ := ix.revertBlock_spec header body hs
  rw [hremains.records name hn, if_neg hid, hdoc, Rollback.unwoundAt] at hgone
  split at hgone
  · by_contra hfee
    rw [Rollback.unwound_of_fee (.inl (Option.isSome_iff_ne_none.2 hfee))] at hgone
    cases hgone
  · cases hgone

/-- A document with a fee outlasts every revert of a body that does not name it. -/
theorem isSome_reverted_of_fee (header : Header) (hs : s.Usable) (hn : name ∈ Index.records)
    (hid : id ∉ body.txHashes) (hdoc : s.get? name id = some doc) (hfee : (doc.get? Fee.feeField).isSome) :
    ((ix.reverted header body s).get? name id).isSome := by
  obtain ⟨-, hremains⟩ := ix.revertBlock_spec header body hs
  rw [hremains.records name hn, if_neg hid, hdoc, Rollback.unwoundAt]
  split
  · rw [Rollback.unwound_of_fee (.inl hfee)]
    rfl
  · rfl

/-- A block with a transaction of which there was a placeholder is saved amid a revert that removes the
placeholder. All calls succeed, and the transaction is not stored, though it is when either comes first. -/
theorem save_lost_amid_revert (other : Indexer) (header : Header) (hs : s.Usable) (hb : block.Ordered)
    {arrange : WriteBatch → WriteBatch} (ha : ∀ b, (arrange b).indices.Perm b.indices)
    (hn : name ∈ Index.records) {info : TxInfo} (hheld : block.pool.transactions.find? id = some info)
    (hresult : block.pool.scResults.find? id = none) (hid : id ∉ body.txHashes)
    (hstored : (s.get? name id).isSome) (hgone : (ix.reverted header body s).get? name id = none) :
    (∃ report t, Session.Interleaved (Rollback.revertBlock ix.denomination header body)
      (other.saveInOrder block arrange) s (.ok ()) (.ok report) t ∧ t.get? name id = none) ∧
      ((other.saved block (ix.reverted header body s)).get? name id).isSome ∧
      ((ix.reverted header body (other.saved block s)).get? name id).isSome := by
  obtain ⟨doc, hdoc⟩ := Option.isSome_iff_exists.1 hstored
  have hfee := ix.get?_fee_of_reverted header hs hn hid hdoc hgone
  have hsave := other.sends_saveInOrder block ha (Index.mem_revertible_of_mem_records hn) id
  obtain ⟨-, t, hamid, ⟨report, rfl⟩, hget⟩ :=
    ix.revert_overwrites header hs hn hdoc hfee hid (hgone ▸ nofun) hsave.ends
  obtain ⟨-, hremains⟩ := ix.revertBlock_spec header body hs
  obtain ⟨first, hfirst, -⟩ := other.fee_of_saved_held hremains.usable hb hn hheld hresult
  obtain ⟨last, hlast, hlastFee⟩ := other.fee_of_saved_held hs hb hn hheld hresult
  refine ⟨⟨report, t, hamid, hget.trans hgone⟩, Option.isSome_of_eq_some hfirst, ?_⟩
  exact ix.isSome_reverted_of_fee header (other.usable_saved block hs) hn hid hlast hlastFee

/-- A block with nothing but a result is reverted while the block with its transaction is saved. -/
theorem save_lost_amid_revert_placeholder :
    let ix : Indexer := {}
    let result : ScResultInfo := { result := { originTxHash := [0xaa] } }
    let info : TxInfo := { transaction := { gasLimit := 50000 } }
    let first : Block :=
      { header := { hash := [1] }, body := ⟨[{ hash := [0x5b], kind := .scResults, txHashes := [[0xb1]] }]⟩
        pool := { scResults := [("b1", result)] } }
    let second : Block :=
      { header := { hash := [2] }, body := ⟨[{ hash := [0x4d], txHashes := [[0xaa]] }]⟩
        pool := { transactions := [("aa", info)] } }
    let s := ix.saved first (Store.withPageSize 10)
    ∀ name ∈ Index.records,
      (∃ report t, Session.Interleaved (Rollback.revertBlock ix.denomination first.header first.body)
        (ix.save second) s (.ok ()) (.ok report) t ∧ t.get? name "aa" = none) ∧
        ((ix.saved second (ix.reverted first.header first.body s)).get? name "aa").isSome ∧
        ((ix.reverted first.header first.body (ix.saved second s)).get? name "aa").isSome := by
  intro ix result info first second s name hn
  have hempty := Store.usable_withPageSize 10
  have hfirst : first.Ordered := ⟨by simp [first, Dict.Sorted], by simp [first, Dict.Sorted]⟩
  have hsecond : second.Ordered := ⟨by simp [second, Dict.Sorted], by simp [second, Dict.Sorted]⟩
  have hhash : first.body.txHashes = ["b1"] := by decide
  have horigin : "aa" ∈ first.pool.origins := by decide
  have hresults : first.ResultsOnly := ⟨rfl, rfl, fun hash hf => hhash ▸ Dict.has_iff.1 hf⟩
  have hregular : Regular [first] := by
    refine ⟨by decide, fun block hm id held hi => ?_⟩
    rw [List.mem_singleton.1 hm] at hi
    cases hi
  have hstored : (s.get? name "aa").isSome := by
    rw [ix.get?_saved_records first hempty hfirst hn, ix.recordAfter_of_foreign first rfl (by decide),
      if_pos (.inl horigin)]
    rfl
  have hgone : (ix.reverted first.header first.body s).get? name "aa" = none := by
    rw [ix.get?_reverted_records (.start 10) hfirst hresults (fun _ _ _ _ => rfl) rfl hregular hn, if_pos horigin]
    rfl
  rw [ix.save_eq_saveInOrder]
  exact ix.save_lost_amid_revert ix first.header (ix.usable_saved first hempty) hsecond (fun b => .refl _) hn (rfl : second.pool.transactions.find? "aa" = some info) rfl
    (hhash ▸ by decide) hstored hgone

end Indexer
end ChainIndex
