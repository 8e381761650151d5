import ChainIndex.Proofs.Indexer.Attempt
import ChainIndex.Proofs.Store.Parallel

/-!
Flushes over anything that answers calls, however its indices take turns. Each index is sent its requests up to
the first that fails, whatever becomes of the others, and the failure that is reported is that of the first index
with one.
-/
namespace ChainIndex
namespace Flush

def tasks (limit : Nat) (b : WriteBatch) : Dict (Session (Except StoreError Nat)) :=
  b.indices.map fun e => (e.1, (flushIndex limit e.1 e.2).run)

/-- The requests that an index is cut into: its documents in order. -/
def requests (limit : Nat) (docs : Dict WriteAction) : List (List WriteItem) :=
  (Bulk.ofList limit (docs.map fun e => ⟨e.1, e.2⟩)).chunks

theorem requests_ne_nil {limit : Nat} {docs : Dict WriteAction} (h : docs ≠ []) : requests limit docs ≠ [] := by
  intro hnil
  have hflatten := Bulk.flatten_chunks_ofList limit (docs.map fun e => ⟨e.1, e.2⟩)
  rw [requests] at hnil
  rw [hnil] at hflatten
  exact h (List.map_eq_nil_iff.1 hflatten.symm)

/-- The calls are the requests in order, up to the first that fails and none after it. -/
inductive SentUntilFailure (index : String) : List (List WriteItem) → List Exchange → Prop
  | nil : SentUntilFailure index [] []
  | failed (chunk : List WriteItem) (rest : List (List WriteItem)) (e : StoreError) :
      SentUntilFailure index (chunk :: rest) [⟨.bulkUpsert index chunk, .error e⟩]
  | sent {rest : List (List WriteItem)} {log : List Exchange} (chunk : List WriteItem) :
      SentUntilFailure index rest log →
      SentUntilFailure index (chunk :: rest) (⟨.bulkUpsert index chunk, .ok ()⟩ :: log)

theorem SentUntilFailure.ne_nil {index : String} {chunks : List (List WriteItem)} {log : List Exchange}
    (h : SentUntilFailure index chunks log) (hc : chunks ≠ []) : log ≠ [] := by
  cases h with
  | nil => exact absurd rfl hc
  | failed chunk rest e => exact List.cons_ne_nil _ _
  | sent chunk _ => exact List.cons_ne_nil _ _

def outcomeOf (index : String) (log : List Exchange) : Except StoreError Unit :=
  firstError ((log.filter (·.call.index = index)).map Exchange.outcome)

theorem outcomeOf_eq_ok_iff {index : String} {log : List Exchange} :
    outcomeOf index log = .ok () ↔ ∀ x ∈ log, x.call.index = index → x.outcome = .ok () := by
  rw [outcomeOf, firstError_eq_ok_iff, List.forall_mem_map]
  refine ⟨fun h x hx hindex => ?_, fun h x hx => ?_⟩
  · obtain ⟨_, hok⟩ := h x (List.mem_filter.2 ⟨hx, decide_eq_true hindex⟩)
    exact hok
  · obtain ⟨hx, hindex⟩ := List.mem_filter.1 hx
    exact ⟨(), h x hx (of_decide_eq_true hindex)⟩

/-- Requests are sent in order until one fails, and that failure is the outcome. -/
theorem runs_sendAll {index : String} {chunks : List (List WriteItem)} {log : List Exchange}
    {outcome : Except StoreError Unit} (h : Session.Runs (sendAll index chunks).run log outcome) :
    SentUntilFailure index chunks log ∧ outcome = firstError (log.map Exchange.outcome) := by
  induction chunks generalizing log with
  | nil =>
    change Session.Runs (.done (.ok ())) log outcome at h
    cases h
    exact ⟨.nil, rfl⟩
  | cons chunk rest ih =>
    cases h with
    | call reply hnext =>
      cases reply with
      | error e =>
        cases hnext
        exact ⟨.failed chunk rest e, rfl⟩
      | ok x =>
        obtain ⟨hsent, houtcome⟩ := ih hnext
        exact ⟨.sent chunk hsent, houtcome⟩

/-- An index is flushed by its own requests, whatever happens to the others. -/
theorem runs_flushIndex {limit : Nat} {index : String} {docs : Dict WriteAction} {log : List Exchange}
    {outcome : Except StoreError Nat} (h : Session.Runs (flushIndex limit index docs).run log outcome) :
    SentUntilFailure index (requests limit docs) log ∧
      outcome = (firstError (log.map Exchange.outcome)).map fun _ => docs.length := by
  have hlength : (Bulk.ofList limit (docs.map fun e => ⟨e.1, e.2⟩)).length = docs.length := by
    rw [Bulk.length_ofList, List.length_map]
  have hrun : (flushIndex limit index docs).run = (sendAll index (requests limit docs)).run >>= fun sent =>
      Session.done (sent.map fun _ => docs.length) := by
    rw [← hlength, flushIndex, ExceptT.run_bind]
    refine bind_congr fun sent => ?_
    cases sent <;> rfl
  rw [hrun] at h
  obtain ⟨sent, hsent, rfl⟩ := h.of_bind_done
  obtain ⟨hlog, rfl⟩ := runs_sendAll hsent
  exact ⟨hlog, rfl⟩

/-- Where some index fails, the first of all that fail is reported. -/
theorem firstError_cases {indices : Dict (Dict WriteAction)} (h : indices.Sorted)
    (outcome : String → Except StoreError Unit) :
    (∀ e ∈ indices, outcome e.1 = .ok ()) ∨ ∃ e ∈ indices, ∃ failure, outcome e.1 = .error failure ∧
      firstError (indices.map fun e => (outcome e.1).map fun _ => e.2.length) = .error failure ∧
      ∀ other ∈ indices, other.1 < e.1 → outcome other.1 = .ok () := by
  induction indices with
  | nil => exact .inl nofun
  | cons e rest ih =>
    obtain ⟨hlt, hrest⟩ := List.pairwise_cons.1 h
    cases he : outcome e.1 with
    | error failure =>
      have hfirst : firstError ((e :: rest).map fun e => (outcome e.1).map fun _ => e.2.length) = .error failure := by
        simp [he, Except.map, firstError]
      refine .inr ⟨e, List.mem_cons_self, failure, he, hfirst, fun other ho hbefore => ?_⟩
      rcases List.mem_cons.1 ho with rfl | ho
      · exact absurd hbefore (String.lt_irrefl _)
      · exact absurd (String.lt_trans hbefore (hlt other ho)) (String.lt_irrefl _)
    | ok x =>
      rcases ih hrest with hok | ⟨first, hfirst, failure, hfailure, hreport, hbefore⟩
      · exact .inl (List.forall_mem_cons.2 ⟨he, hok⟩)
      · refine .inr ⟨first, List.mem_cons_of_mem _ hfirst, failure, hfailure, ?_, ?_⟩
        · simpa [he, Except.map, firstError] using hreport
        · exact List.forall_mem_cons.2 ⟨fun _ => he, hbefore⟩

section Parallel

variable {σ : Type} {answer : σ → (c : StoreCall) → c.Reply × σ} {limit : Nat} {b : WriteBatch} {s t : σ}
  {log : List Exchange} {results : Dict (Except StoreError Nat)}

theorem find?_tasks (limit : Nat) (b : WriteBatch) (index : String) :
    (tasks limit b).find? index = (b.indices.find? index).map fun docs => (flushIndex limit index docs).run :=
  Dict.find?_map b.indices (fun index docs => (flushIndex limit index docs).run) index

theorem separate_tasks (limit : Nat) (b : WriteBatch) : Session.Separate (tasks limit b) := by
  intro index p hp
  rw [find?_tasks] at hp
  obtain ⟨docs, -, rfl⟩ := Option.map_eq_some_iff.1 hp
  exact within_flushIndex limit index docs

/-- Each index is sent its requests up to the first that fails. -/
theorem sent_of_parallel (h : Session.Parallel answer (tasks limit b) s log results t) {index : String}
    {docs : Dict WriteAction} (hd : b.indices.find? index = some docs) :
    SentUntilFailure index (requests limit docs) (log.filter (·.call.index = index)) ∧
      results.find? index = some ((outcomeOf index log).map fun _ => docs.length) := by
  have hruns := h.runs (separate_tasks limit b) index
  rw [find?_tasks, hd] at hruns
  obtain ⟨outcome, hresult, hrun⟩ := hruns
  obtain ⟨hsent, rfl⟩ := runs_flushIndex hrun
  exact ⟨hsent, hresult⟩

theorem index_mem_of_parallel (h : Session.Parallel answer (tasks limit b) s log results t) {x : Exchange}
    (hx : x ∈ log) : ∃ docs, (x.call.index, docs) ∈ b.indices := by
  obtain ⟨p, hp⟩ := h.exists_of_mem (separate_tasks limit b) hx
  rw [find?_tasks] at hp
  obtain ⟨docs, hd, -⟩ := Option.map_eq_some_iff.1 hp
  exact ⟨docs, Dict.mem_of_find? hd⟩

/-- The answers come in the order of the indices, whichever was the last to end. -/
theorem results_of_parallel (hb : b.Ordered) (h : Session.Parallel answer (tasks limit b) s log results t) :
    results = b.indices.map fun e => (e.1, (outcomeOf e.1 log).map fun _ => e.2.length) := by
  have htasks : (tasks limit b).Sorted := hb.indices.map _
  refine (h.sorted htasks).ext (hb.indices.map fun index docs => (outcomeOf index log).map fun _ => docs.length)
    fun index => ?_
  rw [Dict.find?_map b.indices fun index docs => (outcomeOf index log).map fun _ => docs.length]
  cases hd : b.indices.find? index with
  | some docs => exact (sent_of_parallel h hd).2
  | none =>
    have hruns := h.runs (separate_tasks limit b) index
    rw [find?_tasks, hd] at hruns
    exact hruns.1

theorem report_of_parallel (hb : b.Ordered) (h : Session.Parallel answer (tasks limit b) s log results t) :
    (report results = .ok { written := b.indices.map fun e => (e.1, e.2.length) } ∧
        ∀ x ∈ log, x.outcome = .ok ()) ∨
      ∃ index failure, report results = .error failure ∧ outcomeOf index log = .error failure ∧
        ∀ other, other < index → outcomeOf other log = .ok () := by
  have hresults := results_of_parallel hb h
  rcases firstError_cases hb.indices (outcomeOf · log) with hok | ⟨e, -, failure, he, hfirst, hbefore⟩
  · refine .inl ⟨?_, fun x hx => ?_⟩
    · rw [hresults, ← report_of_ok]
      refine congrArg report (List.map_congr_left fun e he => ?_)
      rw [hok e he]
      rfl
    · obtain ⟨docs, hd⟩ := index_mem_of_parallel h hx
      exact outcomeOf_eq_ok_iff.1 (hok _ hd) x hx rfl
  · refine .inr ⟨e.1, failure, ?_, he, fun other ho => outcomeOf_eq_ok_iff.2 fun x hx hx' => ?_⟩
    · rw [hresults, report, List.map_map]
      exact congrArg (· >>= _) hfirst
    · subst hx'
      obtain ⟨docs, hd⟩ := index_mem_of_parallel h hx
      exact outcomeOf_eq_ok_iff.1 (hbefore _ hd ho) x hx rfl

/-- A flush one index after the other is one way for the indices to take turns. -/
theorem parallel_flush (hb : b.Ordered) (answer : σ → (c : StoreCall) → c.Reply × σ) (s : σ) :
    ∃ log results t, Session.Parallel answer (tasks limit b) s log results t ∧
      (flush limit b).runWith answer s = (report results, t) := by
  have htasks : (tasks limit b).Sorted := hb.indices.map _
  obtain ⟨log, results, t, hlog, hrun⟩ := Session.parallel_all htasks answer s
  refine ⟨log, results, t, hlog, (Session.runWith_bind answer (flushIndices limit b.indices) _ s).trans ?_⟩
  have hall : flushIndices limit b.indices =
      Session.all ((tasks limit b).map fun e => e.2 >>= fun x => Session.done (e.1, x)) := by
    rw [tasks, List.map_map]
    rfl
  rw [hall, hrun]
  rfl

end Parallel

/-- Over anything that answers calls, and however the indices take turns: each index is attempted, and is sent its
documents in order up to the first request that fails. The counts of all are reported if no call fails, else the
first failure of the first index with one. -/
theorem flush_until_failure (limit : Nat) {b : WriteBatch} (hb : b.Ordered) {σ : Type}
    (answer : σ → (c : StoreCall) → c.Reply × σ) (s : σ) :
    (∃ log results t, Session.Parallel answer (tasks limit b) s log results t ∧
      (flush limit b).runWith answer s = (report results, t)) ∧
    ∀ log results t, Session.Parallel answer (tasks limit b) s log results t →
      (∀ index docs, b.indices.find? index = some docs →
        SentUntilFailure index (requests limit docs) (log.filter (·.call.index = index)) ∧
        (docs ≠ [] → ∃ x ∈ log, x.call.index = index)) ∧
      (∀ x ∈ log, x.call.index ∈ b.indices.keys) ∧
      ((report results = .ok { written := b.indices.map fun e => (e.1, e.2.length) } ∧
          ∀ x ∈ log, x.outcome = .ok ()) ∨
        ∃ index failure, report results = .error failure ∧ outcomeOf index log = .error failure ∧
          ∀ other, other < index → outcomeOf other log = .ok ()) := by
  refine ⟨parallel_flush hb answer s, fun log results t h => ⟨fun index docs hd => ?_, fun x hx => ?_,
    report_of_parallel hb h⟩⟩
  · obtain ⟨hsent, -⟩ := sent_of_parallel h hd
    refine ⟨hsent, fun hdocs => ?_⟩
    obtain ⟨x, hx⟩ := List.exists_mem_of_ne_nil _ (hsent.ne_nil (requests_ne_nil hdocs))
    obtain ⟨hx, hindex⟩ := List.mem_filter.1 hx
    exact ⟨x, hx, of_decide_eq_true hindex⟩
  · obtain ⟨docs, hd⟩ := index_mem_of_parallel h hx
    exact List.mem_map.2 ⟨_, hd, rfl⟩

section TwoIndices

def twoIndices : WriteBatch where
  indices := [("blocks", [("B1", .delete), ("B2", .delete)]), ("tokens", [("T1", .delete), ("T2", .delete)])]

def answerOnce (answered : Bool) (c : StoreCall) : c.Reply × Bool :=
  match c with
  | .bulkUpsert index _ => (if answered then .error (Store.unavailableError index) else .ok (), true)
  | _ => (.error (Store.unavailableError c.index), true)

def failingInTurns : List Exchange :=
  [⟨.bulkUpsert "blocks" [⟨"B1", .delete⟩], .ok ()⟩,
    ⟨.bulkUpsert "tokens" [⟨"T1", .delete⟩], .error (Store.unavailableError "tokens")⟩,
    ⟨.bulkUpsert "blocks" [⟨"B2", .delete⟩], .error (Store.unavailableError "blocks")⟩]

def failures : Dict (Except StoreError Nat) :=
  [("blocks", .error (Store.unavailableError "blocks")), ("tokens", .error (Store.unavailableError "tokens"))]

theorem ordered_twoIndices : twoIndices.Ordered := by
  refine ⟨by unfold Dict.Sorted; decide, fun name docs hd => ?_⟩
  have hm := Dict.mem_of_find? hd
  simp only [twoIndices, List.mem_cons, Prod.mk.injEq, List.not_mem_nil, or_false] at hm
  rcases hm with ⟨-, rfl⟩ | ⟨-, rfl⟩ <;> (unfold Dict.Sorted; decide)

theorem parallel_failingInTurns :
    Session.Parallel answerOnce (tasks 0 twoIndices) false failingInTurns failures true := by
  refine @Session.Parallel.call _ _ _ _ "blocks" (.bulkUpsert "blocks" [⟨"B1", .delete⟩]) _ _ _ _ _ rfl ?_
  refine @Session.Parallel.call _ _ _ _ "tokens" (.bulkUpsert "tokens" [⟨"T1", .delete⟩]) _ _ _ _ _ rfl ?_
  refine @Session.Parallel.call _ _ _ _ "blocks" (.bulkUpsert "blocks" [⟨"B2", .delete⟩]) _ _ _ _ _ rfl ?_
  exact .done failures true

theorem flush_until_failure_in_turns :
    twoIndices.Ordered ∧ Session.Parallel answerOnce (tasks 0 twoIndices) false failingInTurns failures true ∧
      report failures = .error (Store.unavailableError "blocks") ∧
      ∃ index failure, report failures = .error failure ∧ outcomeOf index failingInTurns = .error failure ∧
        ∀ other, other < index → outcomeOf other failingInTurns = .ok () := by
  have hrun := (flush_until_failure 0 ordered_twoIndices answerOnce false).2 _ _ _ parallel_failingInTurns
  exact ⟨ordered_twoIndices, parallel_failingInTurns, rfl, hrun.2.2.resolve_left fun h => nomatch h.1⟩

end TwoIndices

end Flush
end ChainIndex
