import ChainIndex.Proofs.Indexer.Reindex

/-!
Reverts that fail in part and are repeated. Each index is left alone or done with, but the results of
the body are removed even where the transactions they belong to could not be unwound, and once they
are gone nothing tells which transactions those were.
-/
namespace ChainIndex

variable {s t u : Store} {down : List String}

namespace Rollback

/-- A revert calls no index but those that it takes documents from. -/
theorem within_revertBlock (d : Denomination) (header : Header) (body : Body) :
    (revertBlock d header body).Within Index.revertible := by
  refine Session.Within.bind (Session.within_all fun p hp => ?_) fun outcomes => ?_
  · obtain ⟨⟨step, procedure⟩, hstep, rfl⟩ := List.mem_map.1 hp
    refine Session.Within.bind (?_ : procedure.Within _) fun _ => trivial
    simp only [steps, List.mem_cons, List.not_mem_nil, or_false, Prod.mk.injEq] at hstep
    rcases hstep with ⟨-, rfl⟩ | ⟨-, rfl⟩ | ⟨-, rfl⟩ | ⟨-, rfl⟩
    · exact (within_removeBlock header).mono (by decide)
    · exact (within_revertMiniBlocks header body).mono (by decide)
    · exact (within_removeTransactions d body).mono (by decide)
    · exact (within_removeBalances _ _).mono (by decide)
  · split <;> trivial

/-- Where no result of the body is stored, nothing is unwound. -/
theorem unwoundAt_of_no_results {hashes : List String} (h : ∀ hash ∈ hashes, t.get? Index.scResults hash = none)
    (d : Denomination) (id : String) (stored : Option Value) : unwoundAt d hashes t id stored = stored := by
  have hnone : resultsOf hashes t id = [] := by
    refine List.filter_eq_nil_iff.2 fun hash hm => ?_
    simp [h hash hm, originOf]
  exact unwoundAt_eq_self hnone d stored

/-- A marked transaction changes when the last of its results goes. -/
theorem unwoundAt_ne_of_marked {hashes : List String} {hash id : String} {doc : Value} (hs : s.Usable)
    (hm : hash ∈ hashes) (hid : id ∉ hashes) (horigin : originOf (s.get? Index.scResults hash) = some id)
    (hlast : ∀ other, originOf (s.get? Index.scResults other) = some id → other ∈ hashes)
    (hmark : (doc.get? hasScResults).isSome) (d : Denomination) :
    unwoundAt d hashes s id (some doc) ≠ some doc := by
  have hresults : resultsOf hashes s id ≠ [] := List.ne_nil_of_mem (mem_resultsOf.2 ⟨hm, horigin⟩)
  have hothers : others hashes s id = false := by
    refine Bool.eq_false_iff.2 fun hothers => ?_
    obtain ⟨other, hout, ho⟩ := (others_eq_true_iff hs).1 hothers
    exact hout (hlast other ho)
  rw [unwoundAt_eq_unwound hid hresults, hothers]
  intro hsame
  simp only [unwound] at hsame
  split at hsame
  · have hfield := congrArg (·.get? hasScResults) (Option.some.inj hsame)
    have hplain : hasScResults ∉ Fee.fields := by decide
    rw [get?_unwindMutations d _ false doc hplain, if_pos ⟨rfl, rfl⟩] at hfield
    rw [← hfield] at hmark
    cases hmark
  · cases hsame

variable {d : Denomination} {header : Header} {body : Body}

/-- A second revert, with all indices available, does not make up for transactions that could not be
unwound while the results that belong to them were removed. -/
theorem RemainsPartly.get?_records (ht : RemainsPartly down d header body s t) (hs : s.Usable)
    (hu : Remains d header body t u) {name : String} (hn : name ∈ Index.records) (id : String) :
    u.get? name id =
      if id ∈ body.txHashes then none
      else if name ∈ down ∧ Index.scResults ∉ down then s.get? name id
      else unwoundAt d body.txHashes s id (s.get? name id) := by
  rw [hu.records name hn id]
  by_cases hid : id ∈ body.txHashes
  · rw [if_pos hid, if_pos hid]
  rw [if_neg hid, if_neg hid]
  by_cases hr : Index.scResults ∈ down
  · have hsame : t.get? name id = s.get? name id := by
      by_cases hd : name ∈ down
      · exact ht.failed name hd id
      · rw [ht.records name hn hd, if_neg hid, if_pos hr]
    rw [unwoundAt_congr hs ht.usable (ht.failed _ hr), hsame, if_neg fun h => h.2 hr]
  · have hgone : ∀ hash ∈ body.txHashes, t.get? Index.scResults hash = none := fun hash hm => by
      rw [ht.scResults hr, if_pos hm]
    rw [unwoundAt_of_no_results hgone]
    by_cases hd : name ∈ down
    · rw [ht.failed name hd, if_pos ⟨hd, hr⟩]
    · rw [ht.records name hn hd, if_neg hid, if_neg hr, if_neg fun h => hd h.1]

/-- Reverting a miniblock again changes nothing. -/
theorem applyAt_miniBlockReverts_twice (header : Header) (body : Body) (id : String) (stored : Option Value) :
    WriteItem.applyAt id (miniBlockReverts header body)
        (WriteItem.applyAt id (miniBlockReverts header body) stored) =
      WriteItem.applyAt id (miniBlockReverts header body) stored := by
  unfold miniBlockReverts
  by_cases hsent : ∃ m ∈ body.miniBlocks, m.hashHex = id ∧ m.sender = header.shard
  · simp only [applyAt_miniBlockReverts_of_sent hsent]
  · have hnot : ∀ m ∈ body.miniBlocks, m.hashHex = id → m.sender ≠ header.shard :=
      fun m hm hid hs => hsent ⟨m, hm, hid, hs⟩
    simp only [applyAt_miniBlockReverts_of_not_sent hnot]
    split
    · cases stored <;> simp [Value.eraseKey_eraseKey]
    · rfl

/-- All other documents are those that one revert leaves. -/
theorem RemainsPartly.get?_others (ht : RemainsPartly down d header body s t) (hu : Remains d header body t u)
    {v : Store} (hv : Remains d header body s v) {name : String} (hn : name ∈ Index.revertible)
    (hr : name ∉ Index.records) (id : String) : u.get? name id = v.get? name id := by
  have hname := Index.eq_of_mem_revertible hn hr
  by_cases hd : name ∈ down
  · have hsame := ht.failed name hd id
    rcases hname with rfl | rfl | rfl | rfl
    · rw [hu.scResults, hv.scResults, hsame]
    · rw [hu.miniBlocks, hv.miniBlocks, hsame]
    · rw [hu.blocks, hv.blocks, hsame]
    · rw [hu.balances, hv.balances, hsame]
  · rcases hname with rfl | rfl | rfl | rfl
    · rw [hu.scResults, hv.scResults, ht.scResults hd]
      split <;> rfl
    · rw [hu.miniBlocks, hv.miniBlocks, ht.miniBlocks hd, applyAt_miniBlockReverts_twice]
    · rw [hu.blocks, hv.blocks, ht.blocks hd]
      split <;> rfl
    · rw [hu.balances, hv.balances, ht.balances hd]
      simp

end Rollback

namespace Indexer

theorem reverted_eq_run (ix : Indexer) (header : Header) (body : Body) (s : Store) :
    ix.reverted header body s = ((Rollback.revertBlock ix.denomination header body).run s).2 := by
  unfold reverted revertBlock
  dsimp only
  split <;> rfl

/-- The store after a revert during which indices are unavailable, with all available again. -/
theorem revertBlock_eq_attempt (ix : Indexer) (header : Header) (body : Body) (down : List String) (s : Store) :
    (ix.revertBlock header body (s.withUnavailable down)).2.2.withUnavailable [] =
      Session.attempt (Rollback.revertBlock ix.denomination header body) down s :=
  congrArg (·.withUnavailable []) (ix.reverted_eq_run header body _)

/-- Whether a repeated revert leaves what one revert leaves is decided by the transactions alone. -/
theorem index_reverted_iff (ix : Indexer) (header : Header) (body : Body) (h : s.Usable)
    (down : List String) :
    let t := Session.attempt (Rollback.revertBlock ix.denomination header body) down s
    (∀ name, (ix.reverted header body t).index name = (ix.reverted header body s).index name) ↔
      ∀ name ∈ Index.records, name ∈ down → Index.scResults ∉ down → ∀ id ∉ body.txHashes,
        Rollback.unwoundAt ix.denomination body.txHashes s id (s.get? name id) = s.get? name id := by
  intro t
  have ht := Rollback.remainsPartly ix.denomination header body h down
  obtain ⟨-, hu⟩ := ix.revertBlock_spec header body ht.usable
  obtain ⟨-, hv⟩ := ix.revertBlock_spec header body h
  constructor
  · intro hsame name hn hd hr id hid
    have hget : (ix.reverted header body t).get? name id = (ix.reverted header body s).get? name id :=
      congrArg (·.find? id) (hsame name)
    rw [ht.get?_records h hu hn, hv.records name hn, if_neg hid, if_neg hid, if_pos ⟨hd, hr⟩] at hget
    exact hget.symm
  · intro hkept name
    have hframe := Rollback.within_revertBlock ix.denomination header body
    by_cases hn : name ∈ Index.revertible
    · refine hv.usable.index_eq hu.usable fun id => ?_
      by_cases hr : name ∈ Index.records
      · rw [ht.get?_records h hu hr, hv.records name hr]
        split
        · rfl
        · next hid =>
          split
          · next hd => exact (hkept name hr hd.1 hd.2 id hid).symm
          · rfl
      · exact ht.get?_others hu hv hn hr id
    · rw [reverted_eq_run, reverted_eq_run, hframe.index_run hn, hframe.index_run hn]
      exact hframe.index_attempt hn down s

/-- A revert during which indices are unavailable can be repeated. What it leaves then is what one
undisturbed revert leaves exactly if no transaction outside the body was to be unwound in an index
that was unavailable while the results were not. -/
theorem revert_retry_eq_iff (ix : Indexer) (header : Header) (body : Body) (h : s.Usable)
    (down : List String) :
    let first := ix.revertBlock header body (s.withUnavailable down)
    let again := first.2.1.revertBlock header body (first.2.2.withUnavailable [])
    let once := ix.revertBlock header body s
    again.1 = .ok () ∧ once.1 = .ok () ∧
      ((∀ name, again.2.2.index name = once.2.2.index name) ↔
        ∀ name ∈ Index.records, name ∈ down → Index.scResults ∉ down → ∀ id ∉ body.txHashes,
          Rollback.unwoundAt ix.denomination body.txHashes s id (s.get? name id) = s.get? name id) := by
  intro first again once
  have hpartly := Rollback.remainsPartly ix.denomination header body h down
  have hsecond : ix.Alike first.2.1 := ix.alike_revertBlock _ _ _
  have hstore : first.2.2.withUnavailable [] =
      Session.attempt (Rollback.revertBlock ix.denomination header body) down s :=
    congrArg (·.withUnavailable []) (ix.reverted_eq_run header body _)
  obtain ⟨hagain, hreverted⟩ := hsecond.revertBlock_eq header body (first.2.2.withUnavailable [])
  obtain ⟨hok, -⟩ := ix.revertBlock_spec header body (hstore ▸ hpartly.usable)
  obtain ⟨honce, -⟩ := ix.revertBlock_spec header body h
  have hleft : again.2.2 =
      ix.reverted header body (Session.attempt (Rollback.revertBlock ix.denomination header body) down s) :=
    hreverted.trans (congrArg (ix.reverted header body) hstore)
  refine ⟨hagain.trans hok, honce, ?_⟩
  rw [hleft]
  exact ix.index_reverted_iff header body h down

/-- A refund block is reverted while transactions are unavailable. The result is removed, the refunded
transaction keeps its refund, and a second revert finds nothing that tells of it. -/
theorem revert_retry_eq_iff_refund :
    let ix : Indexer := {}
    let info : TxInfo :=
      { transaction := { gasLimit := 50000 }, feeInfo := { initialPaidFee := ⟨1000000, by decide⟩ } }
    let refund : ScResultInfo :=
      { result := { originTxHash := [0xaa] }, feeInfo := { fee := ⟨100000, by decide⟩, gasRefunded := 5000 } }
    let first : Block := { header := { hash := [1] }, pool := { transactions := [("aa", info)] } }
    let second : Block :=
      { header := { hash := [2] }, body := ⟨[{ hash := [0x5c], kind := .scResults, txHashes := [[0xb1]] }]⟩
        pool := { scResults := [("b1", refund)] } }
    let s := ix.saved second (ix.saved first (Store.withPageSize 10))
    let failed := ix.revertBlock second.header second.body (s.withUnavailable [Index.transactions])
    let again := failed.2.1.revertBlock second.header second.body (failed.2.2.withUnavailable [])
    let once := ix.revertBlock second.header second.body s
    Reached ix.denomination [second, first] s ∧ again.1 = .ok () ∧
      ¬∀ name, again.2.2.index name = once.2.2.index name := by
  intro ix info refund first second s
  have hfirst : first.Ordered := ⟨by simp [first, Dict.Sorted], by simp [first, Dict.Sorted]⟩
  have hsecond : second.Ordered := ⟨by simp [second, Dict.Sorted], by simp [second, Dict.Sorted]⟩
  have hhash : second.body.txHashes = ["b1"] := by decide
  obtain ⟨⟨report, hreport⟩, -, -⟩ := ix.saveBlock_spec first (Store.usable_withPageSize 10)
  have hone : Reached ix.denomination [first] (ix.saved first (Store.withPageSize 10)) :=
    .save ix (.start 10) rfl hfirst hreport
  obtain ⟨⟨report', hreport'⟩, -, -⟩ := ix.saveBlock_spec second hone.usable
  have hreached : Reached ix.denomination [second, first] s := .save ix hone rfl hsecond hreport'
  have horigin : Rollback.originOf (s.get? Index.scResults "b1") = some "aa" := by
    have hheld : second.pool.scResults.find? "b1" = some refund := rfl
    obtain ⟨doc, hdoc, hnames⟩ := ix.get?_resultDocument second hheld
    rw [ix.get?_saved_scResults second hone.usable hsecond, hdoc, Option.some_or, Rollback.originOf,
      Option.bind_some, hnames]
    decide
  have hlast (other : String) (ho : Rollback.originOf (s.get? Index.scResults other) = some "aa") :
      other ∈ second.body.txHashes := by
    cases hdoc : s.get? Index.scResults other with
    | none =>
      rw [hdoc] at ho
      cases ho
    | some doc =>
      obtain ⟨block, hm, result, hf, -⟩ := hreached.result hdoc
      simp only [List.mem_cons, List.not_mem_nil, or_false] at hm
      rcases hm with rfl | rfl
      · exact hhash ▸ Dict.has_iff.1 (Option.isSome_of_eq_some hf)
      · cases hf
  have hmem : Index.transactions ∈ Index.records := by decide
  obtain ⟨doc, hdoc, hmark⟩ := hreached.marked hmem (fun hop => absurd hop (by decide)) List.mem_cons_self
    (by decide : "aa" ∈ second.pool.origins)
  obtain ⟨hok, -, hiff⟩ := ix.revert_retry_eq_iff second.header second.body hreached.usable
    [Index.transactions]
  refine ⟨hreached, hok, fun hsame => ?_⟩
  have hkept := hiff.1 hsame _ hmem (List.mem_singleton_self _) (by decide) "aa" (hhash ▸ by decide)
  rw [hdoc] at hkept
  exact Rollback.unwoundAt_ne_of_marked hreached.usable (hhash ▸ List.mem_singleton_self _)
    (hhash ▸ by decide) horigin hlast (Option.isSome_of_eq_some hmark) _ hkept

end Indexer
end ChainIndex
