import ChainIndex.Proofs.Indexer.FailedSteps
import ChainIndex.Proofs.Indexer.Runs

/-!
Reverts that succeed. A revert that succeeds while some indices are unavailable calls none of them, and leaves
what it leaves with all of them available.
-/
namespace ChainIndex

variable {s t : Store} {down : List String}

namespace Rollback

variable {d : Denomination} {header : Header} {body : Body}

theorem failures_eq_nil_iff :
    failures down header body = [] ↔ ∀ step, ∀ name ∈ targets header body step, name ∉ down := by
  have hall (step : RollbackStep) : step ∈ RollbackStep.all := by cases step <;> decide
  rw [← List.map_eq_nil_iff (f := Prod.fst), map_failures, List.filter_eq_nil_iff]
  simp only [decide_eq_true_eq, fails_iff, not_exists, not_and]
  exact ⟨fun h step => h step (hall step), fun h step _ => h step⟩

/-- What remains after a revert with some indices unavailable is what remains with none, if it calls none of
them. -/
theorem RemainsPartly.remains_of_available (h : RemainsPartly down d header body s t)
    (hup : ∀ step, ∀ index ∈ targets header body step, index ∉ down) : Remains d header body s t := by
  have hminis : Index.miniBlocks ∈ down → miniBlockReverts header body = [] := by
    intro hd
    by_contra hne
    exact hup .miniBlocks _ (by simp [targets, hne]) hd
  have hhashes : ∀ name ∈ [Index.scResults, Index.transactions, Index.operations], name ∈ down →
      body.txHashes = [] := by
    intro name hn hd
    by_contra hne
    exact hup .transactions name (by simpa [targets, hne] using hn) hd
  refine ⟨h.usable, h.blocks (hup .block _ List.mem_cons_self), fun id => ?_, fun id => ?_, fun name hn id => ?_,
    h.balances (hup .balances _ List.mem_cons_self)⟩
  · by_cases hd : Index.miniBlocks ∈ down
    · rw [h.failed _ hd, hminis hd]
      rfl
    · exact h.miniBlocks hd id
  · by_cases hd : Index.scResults ∈ down
    · rw [h.failed _ hd, hhashes _ (by decide) hd, if_neg List.not_mem_nil]
    · exact h.scResults hd id
  · have hsame (hnil : body.txHashes = []) (stored : Option Value) :
        unwoundAt d body.txHashes s id stored = stored := by
      rw [hnil]
      rfl
    by_cases hd : name ∈ down
    · have hnil : body.txHashes = [] := hhashes name (List.mem_cons_of_mem _ hn) hd
      rw [h.failed _ hd, hsame hnil, hnil, if_neg List.not_mem_nil]
    · rw [h.records name hn hd]
      by_cases hr : Index.scResults ∈ down
      · rw [if_pos hr, hsame (hhashes _ (by decide) hr)]
      · rw [if_neg hr]

end Rollback

namespace Indexer

/-- A revert that succeeds while some indices are unavailable leaves what it leaves with all of them available. -/
theorem remains_of_revertBlock_ok (ix : Indexer) (header : Header) (body : Body) (h : s.Usable) (down : List String)
    (hok : (ix.revertBlock header body (s.withUnavailable down)).1 = .ok ()) :
    Rollback.Remains ix.denomination header body s
      (Session.attempt (Rollback.revertBlock ix.denomination header body) down s) := by
  rw [ix.revertBlock_answer header body h down] at hok
  have hnone : Rollback.failures down header body = [] := by
    by_contra hne
    rw [if_neg hne] at hok
    cases hok
  exact (Rollback.remainsPartly ix.denomination header body h down).remains_of_available
    (Rollback.failures_eq_nil_iff.1 hnone)

end Indexer
end ChainIndex
