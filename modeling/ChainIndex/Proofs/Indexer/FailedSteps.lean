import ChainIndex.Proofs.Indexer.Retry
import ChainIndex.Proofs.Store.Answers

/-!
Which steps of a revert fail while indices are unavailable, and what the others leave. A step fails if it has
anything to do and one of its own indices is unavailable. The other steps do what they do without failures, save
that transactions are not unwound when their results cannot be read.
-/
namespace ChainIndex

variable {s : Store} {down : List String}

def RollbackStep.all : List RollbackStep := [.block, .miniBlocks, .transactions, .balances]

namespace Rollback

/-- Whether a step fails while some indices are unavailable. -/
def Fails (down : List String) (header : Header) (body : Body) : RollbackStep → Prop
  | .block => Index.blocks ∈ down
  | .miniBlocks =>
    Index.miniBlocks ∈ down ∧ ∃ m ∈ body.miniBlocks, m.sender = header.shard ∨ m.receiver = header.shard
  | .transactions =>
    (∃ m ∈ body.miniBlocks, m.txHashes ≠ []) ∧
      (Index.transactions ∈ down ∨ Index.scResults ∈ down ∨ Index.operations ∈ down)
  | .balances => Index.balances ∈ down

instance (down : List String) (header : Header) (body : Body) : DecidablePred (Fails down header body)
  | .block => inferInstanceAs (Decidable (Index.blocks ∈ down))
  | .miniBlocks => inferInstanceAs (Decidable (_ ∧ _))
  | .transactions => inferInstanceAs (Decidable (_ ∧ _))
  | .balances => inferInstanceAs (Decidable (Index.balances ∈ down))

/-- The indices that a step calls, in the order in which it first calls them. -/
def targets (header : Header) (body : Body) : RollbackStep → List String
  | .block => [Index.blocks]
  | .miniBlocks => if (miniBlockReverts header body).isEmpty then [] else [Index.miniBlocks]
  | .transactions =>
    if body.txHashes.isEmpty then [] else [Index.scResults, Index.transactions, Index.operations]
  | .balances => [Index.balances]

theorem isEmpty_miniBlockReverts (header : Header) (body : Body) :
    (miniBlockReverts header body).isEmpty = false ↔
      ∃ m ∈ body.miniBlocks, m.sender = header.shard ∨ m.receiver = header.shard := by
  rw [Bool.eq_false_iff, Ne, List.isEmpty_iff, miniBlockReverts, List.filterMap_eq_nil_iff]
  simp only [miniBlockRevert?]
  grind

theorem isEmpty_txHashes (body : Body) :
    body.txHashes.isEmpty = false ↔ ∃ m ∈ body.miniBlocks, m.txHashes ≠ [] := by
  rw [Bool.eq_false_iff, Ne, List.isEmpty_iff, Body.txHashes, List.flatMap_eq_nil_iff]
  simp

/-- A step fails exactly if an index is unavailable that it calls. -/
theorem fails_iff (down : List String) (header : Header) (body : Body) (step : RollbackStep) :
    Fails down header body step ↔ ∃ name ∈ targets header body step, name ∈ down := by
  cases step with
  | block => simp [Fails, targets]
  | balances => simp [Fails, targets]
  | miniBlocks =>
    rw [Fails, ← isEmpty_miniBlockReverts, targets]
    cases (miniBlockReverts header body).isEmpty <;> simp
  | transactions =>
    rw [Fails, ← isEmpty_txHashes, targets]
    cases body.txHashes.isEmpty <;> simp
    tauto

theorem answers_removeBlock (header : Header) (down : List String) :
    Session.Answers down (removeBlock header).run (Store.verdict down [Index.blocks]) :=
  StoreM.answers_bulkUpsert _ _ down

theorem answers_writeItems (index : String) (items : List WriteItem) (down : List String) :
    Session.Answers down (writeItems index items).run
      (Store.verdict down (if items.isEmpty then [] else [index])) := by
  cases items with
  | nil => exact Session.answers_done _
  | cons item rest => exact StoreM.answers_bulkUpsert _ _ down

theorem answers_removeBalances (timestamp : UInt64) (shard : UInt32) (down : List String) :
    Session.Answers down (discard (removeBalances timestamp shard)).run (Store.verdict down [Index.balances]) :=
  ((StoreM.stops_deleteByQuery _ _).bind _).answers_unit (within_removeBalances timestamp shard)
    ((StoreM.succeeds_deleteByQuery _ _).bind fun _ => StoreM.succeeds_pure ()) down

theorem answers_unwindParents (index : String) (changes : Dict (List Mutation)) (down : List String) :
    Session.Answers down (unwindParents index changes).run (Store.verdict down [index]) :=
  ((StoreM.stops_multiGet _ _).bind _).answers_unit (within_unwindParents index changes)
    (succeeds_unwindParents index changes) down

/-- Unwinding reads the results, and goes on to the transactions if some result names one. -/
theorem run_unwindResults (d : Denomination) (hashes : List String) (h : s.Usable) (down : List String) :
    ∃ names ∈ [[Index.scResults], [Index.scResults, Index.transactions, Index.operations]],
      (Session.run (unwindResults d hashes).run (s.withUnavailable down)).1 = Store.verdict down names := by
  unfold unwindResults
  by_cases hresults : Index.scResults ∈ down
  · refine ⟨_, List.mem_cons_self, ?_⟩
    rw [← Store.reply_unit, Store.reply, if_pos hresults]
    exact ((StoreM.stops_multiGet _ _).bind _) _ hresults
  have hup : ∀ name ∈ [Index.scResults], name ∉ down := List.forall_mem_singleton.2 hresults
  have hread := (StoreM.gives_multiGet h Index.scResults hashes).withUnavailable (StoreM.within_multiGet _ _) h hup
  rw [ExceptT.run_bind, Session.run_bind, hread]
  dsimp only
  split
  · exact ⟨_, List.mem_cons_self, (Store.verdict_of_available hup).symm⟩
  · have hunwinds := (gives_unwinds d hashes (resultsByParent hashes (hashes.map (s.get? Index.scResults))) h)
      |>.withUnavailable (within_unwinds d hashes _) h hup
    refine ⟨_, List.mem_cons_of_mem _ List.mem_cons_self, ?_⟩
    rw [ExceptT.run_bind, Session.run_bind, hunwinds, Store.verdict_cons_of_available hresults]
    exact StoreM.answers_row Index.records (fun index _ => answers_unwindParents index _ down) s h

/-- The removal of transactions fails by the first of its indices that is unavailable. -/
theorem answers_removeTransactions (d : Denomination) (header : Header) (body : Body) (down : List String) :
    Session.Answers down (removeTransactions d body).run
      (Store.verdict down (targets header body .transactions)) := by
  intro s hs
  unfold removeTransactions
  dsimp only [targets]
  split
  · rfl
  · obtain ⟨names, hnames, hunwound⟩ := run_unwindResults d body.txHashes hs down
    have hrest := Session.answers_all [Index.transactions, Index.scResults, Index.operations] fun index _ =>
      StoreM.answers_bulkUpsert index (body.txHashes.map fun hash => ⟨hash, .delete⟩) down
    rw [ExceptT.run_mk, Session.run_bind, Session.run_all_cons, hunwound, Session.run_withUnavailable_snd,
      hrest _ (Session.usable_attempt hs _ down)]
    have hfirst := Store.firstError_verdict down [names, [Index.transactions], [Index.scResults], [Index.operations]]
    refine Eq.trans hfirst ?_
    simp only [List.mem_cons, List.not_mem_nil, or_false] at hnames
    rcases hnames with rfl | rfl <;>
      by_cases hr : Index.scResults ∈ down <;> by_cases ht : Index.transactions ∈ down <;>
        by_cases ho : Index.operations ∈ down <;> simp [Store.verdict, hr, ht, ho]

/-- Every step answers by the first of its indices that is unavailable. -/
theorem answers_steps (d : Denomination) (header : Header) (body : Body) (down : List String) :
    ∀ e ∈ steps d header body, Session.Answers down e.2.run (Store.verdict down (targets header body e.1)) := by
  intro e he
  simp only [steps, List.mem_cons, List.not_mem_nil, or_false] at he
  rcases he with rfl | rfl | rfl | rfl
  · exact answers_removeBlock header down
  · exact answers_writeItems _ _ down
  · exact answers_removeTransactions d header body down
  · exact answers_removeBalances _ _ down

/-- The steps that fail, each with the error of the first index that it misses. -/
def failures (down : List String) (header : Header) (body : Body) : List (RollbackStep × StoreError) :=
  RollbackStep.all.filterMap fun step => failureOf? step (Store.verdict down (targets header body step))

theorem map_failureOf? (down : List String) (header : Header) (body : Body) (step : RollbackStep) :
    (failureOf? step (Store.verdict down (targets header body step))).map Prod.fst =
      Option.guard (Fails down header body ·) step := by
  have hfails := fails_iff down header body step
  cases hf : (targets header body step).find? (· ∈ down) with
  | none =>
    have hnone : ¬∃ name ∈ targets header body step, name ∈ down := by simpa using hf
    simp [Store.verdict, hf, failureOf?, Option.guard, hfails, hnone]
  | some name =>
    have hsome : ∃ name ∈ targets header body step, name ∈ down :=
      ⟨name, List.mem_of_find?_eq_some hf, by simpa using List.find?_some hf⟩
    simp [Store.verdict, hf, failureOf?, Option.guard, hfails, hsome]

theorem map_failures (down : List String) (header : Header) (body : Body) :
    (failures down header body).map Prod.fst = RollbackStep.all.filter (Fails down header body ·) := by
  rw [failures, List.map_filterMap, ← List.filterMap_eq_filter]
  exact congrArg (List.filterMap · _) (funext fun step => map_failureOf? down header body step)

/-- A revert answers with all failed steps. -/
theorem answers_revertBlock (d : Denomination) (header : Header) (body : Body) (down : List String) :
    Session.Answers down (revertBlock d header body)
      (if failures down header body = [] then .ok () else .error ⟨failures down header body⟩) := by
  have hsteps := Session.answers_all (steps d header body) fun e he =>
    (answers_steps d header body down e he).map (failureOf? e.1)
  refine hsteps.bind ?_
  have hfailures : ((steps d header body).map fun e =>
      failureOf? e.1 (Store.verdict down (targets header body e.1))).filterMap id = failures down header body := by
    rw [List.filterMap_map]
    rfl
  rw [hfailures]
  split
  · next hnil =>
    rw [if_pos hnil]
    exact Session.answers_done _
  · next hne =>
    rw [if_neg hne]
    exact Session.answers_done _

/-- A failed step misses an index that it calls. -/
theorem cause_of_mem_failures {header : Header} {body : Body} {failure : RollbackStep × StoreError}
    (h : failure ∈ failures down header body) :
    ∃ name ∈ targets header body failure.1, name ∈ down ∧ failure.2 = Store.unavailableError name := by
  obtain ⟨step, -, hstep⟩ := List.mem_filterMap.1 h
  rw [Store.verdict] at hstep
  cases hf : (targets header body step).find? (· ∈ down) with
  | none =>
    rw [hf] at hstep
    cases hstep
  | some name =>
    rw [hf] at hstep
    cases hstep
    exact ⟨name, List.mem_of_find?_eq_some hf, by simpa using List.find?_some hf, rfl⟩

/-- An available index holds what it holds after a revert without failures, unless its transactions were to be
unwound by results that could not be read. -/
theorem RemainsPartly.get?_of_available {d : Denomination} {header : Header} {body : Body} {t u : Store}
    (ht : RemainsPartly down d header body s t) (hu : Remains d header body s u) {name : String}
    (hn : name ∈ Index.revertible) (hd : name ∉ down) (hr : name ∈ Index.records → Index.scResults ∉ down)
    (id : String) : t.get? name id = u.get? name id := by
  by_cases hrecord : name ∈ Index.records
  · rw [ht.records name hrecord hd, hu.records name hrecord, if_neg (hr hrecord)]
  rcases Index.eq_of_mem_revertible hn hrecord with rfl | rfl | rfl | rfl
  · rw [ht.scResults hd, hu.scResults]
  · rw [ht.miniBlocks hd, hu.miniBlocks]
  · rw [ht.blocks hd, hu.blocks]
  · rw [ht.balances hd, hu.balances]

end Rollback

namespace Indexer

/-- The answer is the same whatever is stored. -/
theorem revertBlock_answer (ix : Indexer) (header : Header) (body : Body) (h : s.Usable) (down : List String) :
    (ix.revertBlock header body (s.withUnavailable down)).1 =
      if Rollback.failures down header body = [] then .ok ()
      else .error (.rollback ⟨Rollback.failures down header body⟩) := by
  have hrun := Rollback.answers_revertBlock ix.denomination header body down s h
  unfold revertBlock
  generalize (Rollback.revertBlock ix.denomination header body).run (s.withUnavailable down) = answer at hrun ⊢
  obtain ⟨outcome, after⟩ := answer
  obtain rfl : outcome = _ := hrun
  by_cases hnil : Rollback.failures down header body = []
  · rw [if_pos hnil, if_pos hnil]
  · rw [if_neg hnil, if_neg hnil]

/-- Each step of a revert fails on its own. The failed steps are reported in order, each with an index that it
misses, and every available index ends as if nothing had failed. Only transactions outside the body are not
unwound while the results are unavailable. -/
theorem revertBlock_reports_failed_steps (ix : Indexer) (header : Header) (body : Body) (h : s.Usable)
    (down : List String) :
    let answer := ix.revertBlock header body (s.withUnavailable down)
    let once := ix.revertBlock header body s
    let failures := Rollback.failures down header body
    answer.1 = (if failures = [] then .ok () else .error (.rollback ⟨failures⟩)) ∧
      failures.map Prod.fst = RollbackStep.all.filter (Rollback.Fails down header body ·) ∧
      (∀ failure ∈ failures, ∃ name ∈ Rollback.targets header body failure.1,
        name ∈ down ∧ failure.2 = Store.unavailableError name) ∧
      (∀ name ∈ down, answer.2.2.index name = s.index name) ∧
      (∀ name, name ∉ down → (name ∈ Index.records → Index.scResults ∉ down) →
        answer.2.2.index name = once.2.2.index name) ∧
      ∀ name ∈ Index.records, name ∉ down → Index.scResults ∈ down → ∀ id,
        answer.2.2.get? name id = if id ∈ body.txHashes then none else s.get? name id := by
  intro answer once failures
  have ht := Rollback.remainsPartly ix.denomination header body h down
  obtain ⟨-, hu⟩ := ix.revertBlock_spec header body h
  have hframe := Rollback.within_revertBlock ix.denomination header body
  have hleft : answer.2.2.withUnavailable [] =
      Session.attempt (Rollback.revertBlock ix.denomination header body) down s :=
    ix.revertBlock_eq_attempt header body down s
  have hindex (name : String) : answer.2.2.index name =
      (Session.attempt (Rollback.revertBlock ix.denomination header body) down s).index name :=
    congrArg (·.index name) hleft
  refine ⟨ix.revertBlock_answer header body h down, Rollback.map_failures down header body,
    fun failure hf => Rollback.cause_of_mem_failures hf, fun name hd => ?_, fun name hd hr => ?_,
    fun name hn hd hr id => ?_⟩
  · exact (hindex name).trans (h.index_eq ht.usable (ht.failed name hd))
  · rw [hindex]
    by_cases hn : name ∈ Index.revertible
    · exact hu.usable.index_eq ht.usable (ht.get?_of_available hu hn hd hr)
    · have honce := hframe.index_run hn s
      rw [← ix.reverted_eq_run] at honce
      exact (hframe.index_attempt hn down s).trans honce.symm
  · have hget := ht.records name hn hd id
    rw [if_pos hr] at hget
    exact (congrArg (·.find? id) (hindex name)).trans hget

/-- A refund is reverted while the blocks and the results are unavailable. It stays stored, and the transaction keeps
what the refund gave to it. -/
theorem revertBlock_reports_failed_steps_refund :
    let ix : Indexer := {}
    let info : TxInfo :=
      { transaction := { gasLimit := 50000 }, feeInfo := { initialPaidFee := ⟨1000000, by decide⟩ } }
    let refund : ScResultInfo :=
      { result := { originTxHash := [0xaa] }, feeInfo := { fee := ⟨100000, by decide⟩, gasRefunded := 5000 } }
    let first : Block := { header := { hash := [1] }, pool := { transactions := [("aa", info)] } }
    let second : Block :=
      { header := { hash := [2] }, body := ⟨[{ kind := .scResults, txHashes := [[0xb1]] }]⟩
        pool := { scResults := [("b1", refund)] } }
    let s := ix.saved second (ix.saved first (Store.withPageSize 10))
    let answer := ix.revertBlock second.header second.body (s.withUnavailable [Index.scResults, Index.blocks])
    answer.1 = .error (.rollback ⟨[(.block, Store.unavailableError Index.blocks),
        (.transactions, Store.unavailableError Index.scResults)]⟩) ∧
      (answer.2.2.get? Index.scResults "b1").isSome ∧
      answer.2.2.get? Index.transactions "aa" = s.get? Index.transactions "aa" := by
  intro ix info refund first second s answer
  have hfirst : (ix.saved first (Store.withPageSize 10)).Usable := ix.usable_saved first (Store.usable_withPageSize 10)
  have hsecond : second.Ordered := ⟨by simp [second, Dict.Sorted], by simp [second, Dict.Sorted]⟩
  have hs : s.Usable := ix.usable_saved second hfirst
  have hstored : (s.get? Index.scResults "b1").isSome := by
    rw [ix.get?_saved_scResults second hfirst hsecond]
    rfl
  obtain ⟨hanswer, -, -, hdown, -, hkept⟩ :=
    ix.revertBlock_reports_failed_steps second.header second.body hs [Index.scResults, Index.blocks]
  have hfailures : Rollback.failures [Index.scResults, Index.blocks] second.header second.body =
      [(.block, Store.unavailableError Index.blocks), (.transactions, Store.unavailableError Index.scResults)] := by
    decide +kernel
  refine ⟨hanswer.trans ?_, ?_, ?_⟩
  · rw [hfailures, if_neg (List.cons_ne_nil _ _)]
  · have hsame := hdown Index.scResults (by decide)
    rw [Store.get?, hsame]
    exact hstored
  · have hout : "aa" ∉ second.body.txHashes := by decide
    have haa := hkept Index.transactions (by decide) (by decide) (by decide) "aa"
    rw [haa, if_neg hout]

end Indexer
end ChainIndex
