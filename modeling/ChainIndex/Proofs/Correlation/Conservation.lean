import ChainIndex.Proofs.Correlation.Changes
import Mathlib.Data.List.Nodup

/-!
What correlation conserves. Every transaction and every result of a pool gets one record, every refund
goes to the transaction of its result and every signal to its own, and none is lost, doubled or made up.
-/
namespace ChainIndex

def FeeWrite.absoluteRefunds? : FeeWrite → Option (Dict Refund)
  | absolute _ _ refunds _ => some refunds
  | _ => none

def ScResultInfo.refundWithOrigin? (info : ScResultInfo) : Option (String × Refund) :=
  info.refund?.map (info.result.originHash, ·)

def Pool.refundEntries (pool : Pool) : List (String × String × Refund) :=
  pool.scResults.filterMap fun e => e.2.refundWithOrigin?.map (e.1, ·)

namespace CorrelatedBlock

def refundMaps (block : CorrelatedBlock) : List (String × Dict Refund) :=
  (block.transactions.filterMap fun t => t.fee.absoluteRefunds?.map (t.record.hash, ·)) ++
    block.foreign.map fun e => (e.1, e.2.refunds)

def refundEntries (block : CorrelatedBlock) : List (String × String × Refund) :=
  block.refundMaps.flatMap fun m => m.2.map fun e => (e.1, m.1, e.2)

def attachedSignals (block : CorrelatedBlock) : List (String × StatusInfo) :=
  (block.transactions.filterMap fun t => t.signal.map (t.record.hash, ·)) ++
    block.foreign.filterMap fun e => e.2.signal.map (e.1, ·)

/-- A block has all of a pool and of its signals, each in its one place, and nothing else. -/
structure Conserves (block : CorrelatedBlock) (pool : Pool) (signals : Dict StatusInfo) : Prop where
  transactions : block.transactions.map (·.record.hash) = pool.transactions.keys
  scResults : block.scResults.map (fun r => (r.hash, r.originTxHash)) =
    pool.scResults.map fun e => (e.1, e.2.result.originHash)
  /-- The maps together hold each refund once, under its result, for the transaction of the result. -/
  refunds : block.refundEntries.Perm pool.refundEntries
  pooledRefunds : ∀ t ∈ block.transactions, ∃ refunds, t.fee.absoluteRefunds? = some refunds ∧
    ∀ id refund, refunds.find? id = some refund ↔ (id, t.record.hash, refund) ∈ pool.refundEntries
  foreignRefunds : ∀ h u, block.foreign.find? h = some u →
    ∀ id refund, u.refunds.find? id = some refund ↔ (id, h, refund) ∈ pool.refundEntries
  pooledResults : ∀ t ∈ block.transactions, t.record.hasScResults = true ↔ t.record.hash ∈ pool.origins
  foreignResults : ∀ h u, block.foreign.find? h = some u → (u.hasScResults = true ↔ h ∈ pool.origins)
  attached : block.attachedSignals.Perm signals
  pooledSignals : ∀ t ∈ block.transactions, t.signal = signals.find? t.record.hash
  foreignSignals : ∀ h u, block.foreign.find? h = some u → u.signal = signals.find? h
  /-- Foreign are the transactions of results and of signals that the pool does not hold. -/
  foreign : ∀ h, h ∈ block.foreign.keys ↔
    h ∉ pool.transactions.keys ∧ (h ∈ pool.origins ∨ h ∈ signals.keys)
  sorted : block.foreign.Sorted
  apart : block.foreign.keys.Disjoint (block.transactions.map (·.record.hash))

end CorrelatedBlock

namespace Dict

variable {α : Type} {d : Dict α}

theorem Sorted.nodup (h : d.Sorted) : d.Nodup := List.Nodup.of_map _ h.nodup_keys

theorem Sorted.mem_iff (h : d.Sorted) {e : String × α} : e ∈ d ↔ d.find? e.1 = some e.2 :=
  ⟨h.find?_of_mem, mem_of_find?⟩

/-- Looking up names that are all different, every key among them, gives each entry once. -/
theorem Sorted.perm_filterMap_find? (h : d.Sorted) {names : List String} (hn : names.Nodup)
    (hk : d.keys ⊆ names) : (names.filterMap fun name => (d.find? name).map (name, ·)).Perm d := by
  have hnodup : (names.filterMap fun name => (d.find? name).map (name, ·)).Nodup := by
    refine hn.filterMap fun a b e ha hb => ?_
    obtain ⟨_, -, rfl⟩ := Option.map_eq_some_iff.1 ha
    obtain ⟨_, -, hb⟩ := Option.map_eq_some_iff.1 hb
    exact (congrArg Prod.fst hb).symm
  refine (List.perm_ext_iff_of_nodup hnodup h.nodup).2 fun ⟨name, value⟩ => ?_
  rw [h.mem_iff]
  constructor
  · intro hm
    obtain ⟨_, -, he⟩ := List.mem_filterMap.1 hm
    obtain ⟨_, hf, he⟩ := Option.map_eq_some_iff.1 he
    cases he
    exact hf
  · intro hf
    have hname : name ∈ names := hk (List.mem_map.2 ⟨_, mem_of_find? hf, rfl⟩)
    exact List.mem_filterMap.2 ⟨name, hname, Option.map_eq_some_iff.2 ⟨value, hf, rfl⟩⟩

end Dict

namespace Pool

variable {pool : Pool}

/-- A refund is grouped under the transaction of its result. -/
theorem mem_refundEntries (hr : pool.scResults.Sorted) {id h : String} {refund : Refund} :
    (id, h, refund) ∈ pool.refundEntries ↔ (pool.refundsOf h).find? id = some refund := by
  rw [find?_refundsOf_eq_some_iff hr]
  constructor
  · intro hm
    obtain ⟨⟨_, info⟩, he, hm⟩ := List.mem_filterMap.1 hm
    obtain ⟨_, hentry, hm⟩ := Option.map_eq_some_iff.1 hm
    obtain ⟨_, hrefund, hentry⟩ := Option.map_eq_some_iff.1 hentry
    cases hm
    cases hentry
    exact ⟨info, hr.find?_of_mem he, rfl, hrefund⟩
  · rintro ⟨info, hf, rfl, hrefund⟩
    have hentry : info.refundWithOrigin? = some (info.result.originHash, refund) :=
      Option.map_eq_some_iff.2 ⟨refund, hrefund, rfl⟩
    exact List.mem_filterMap.2 ⟨_, Dict.mem_of_find? hf, Option.map_eq_some_iff.2 ⟨_, hentry, rfl⟩⟩

theorem nodup_refundEntries (hr : pool.scResults.Sorted) : pool.refundEntries.Nodup :=
  List.Nodup.of_map _ (Dict.nodup_keys_filterMap hr.nodup_keys ScResultInfo.refundWithOrigin?)

theorem mem_origins_of_find?_refundsOf (hr : pool.scResults.Sorted) {h id : String} {refund : Refund}
    (hf : (pool.refundsOf h).find? id = some refund) : h ∈ pool.origins := by
  obtain ⟨info, hinfo, rfl, -⟩ := (find?_refundsOf_eq_some_iff hr).1 hf
  exact List.mem_map.2 ⟨_, Dict.mem_of_find? hinfo, rfl⟩

end Pool

namespace Correlator

variable (c : Correlator) (header : Header) (body : Body) {pool : Pool} {signals : Dict StatusInfo}

theorem mem_keys_foreign (hs : signals.Sorted) {h : String} :
    h ∈ (foreign pool signals).keys ↔
      h ∉ pool.transactions.keys ∧ (h ∈ pool.origins ∨ h ∈ signals.keys) := by
  rw [← Dict.has_iff, ← Dict.has_iff, ← Dict.has_iff, Dict.has]
  cases ht : pool.transactions.has h with
  | true => simp [find?_foreign_of_has pool signals ht]
  | false =>
    rw [find?_foreign pool hs ht]
    split <;> simp_all

theorem mem_touched (hs : signals.Sorted) {h : String} (ho : h ∈ pool.origins ∨ h ∈ signals.keys) :
    h ∈ touched pool signals := by
  rw [touched, List.mem_append, mem_keys_foreign hs]
  by_cases ht : h ∈ pool.transactions.keys
  · exact .inl ht
  · exact .inr ⟨ht, ho⟩

/-- A foreign entry is what the pool has for its transaction. -/
theorem eq_of_find?_foreign (hs : signals.Sorted) {h : String} {u : ForeignUpdate}
    (hf : (foreign pool signals).find? h = some u) :
    u = ⟨pool.origins.contains h, pool.refundsOf h, signals.find? h⟩ := by
  have ht : pool.transactions.has h = false := by
    cases ht : pool.transactions.has h with
    | false => rfl
    | true => simp [find?_foreign_of_has pool signals ht] at hf
  rw [find?_foreign pool hs ht] at hf
  exact (Option.some.inj (Option.ite_none_right_eq_some.1 hf).2).symm

/-- Every transaction that the block touches carries exactly its own refunds. -/
theorem refundMaps_correlate (hs : signals.Sorted) :
    (c.correlate header body pool signals).refundMaps =
      (touched pool signals).map fun h => (h, pool.refundsOf h) := by
  have hforeign : (foreign pool signals).map (fun e => (e.1, e.2.refunds)) =
      (foreign pool signals).map fun e => (e.1, pool.refundsOf e.1) :=
    List.map_congr_left fun e he => by
      rw [eq_of_find?_foreign hs ((sorted_foreign pool signals).find?_of_mem he)]
  have hpooled : ((c.correlate header body pool signals).transactions.filterMap fun t =>
      t.fee.absoluteRefunds?.map (t.record.hash, ·)) =
        pool.transactions.map fun e => (e.1, pool.refundsOf e.1) := by
    rw [correlate, List.filterMap_map]
    exact congrFun (List.filterMap_eq_map' (f := fun e => (e.1, pool.refundsOf e.1))) pool.transactions
  rw [CorrelatedBlock.refundMaps, hpooled, touched, List.map_append, Dict.keys, Dict.keys, List.map_map,
    List.map_map]
  exact congrArg _ hforeign

/-- Every transaction that the block touches carries the signal about it, if there is one. -/
theorem attachedSignals_correlate (hs : signals.Sorted) :
    (c.correlate header body pool signals).attachedSignals =
      (touched pool signals).filterMap fun h => (signals.find? h).map (h, ·) := by
  have hforeign : ((foreign pool signals).filterMap fun e => e.2.signal.map (e.1, ·)) =
      (foreign pool signals).filterMap fun e => (signals.find? e.1).map (e.1, ·) :=
    List.filterMap_congr fun e he => by
      rw [eq_of_find?_foreign hs ((sorted_foreign pool signals).find?_of_mem he)]
  have hpooled : ((c.correlate header body pool signals).transactions.filterMap fun t =>
      t.signal.map (t.record.hash, ·)) =
        pool.transactions.filterMap fun e => (signals.find? e.1).map (e.1, ·) := by
    rw [correlate, List.filterMap_map]
    rfl
  rw [CorrelatedBlock.attachedSignals, hpooled, touched, List.filterMap_append, Dict.keys, Dict.keys,
    List.filterMap_map, List.filterMap_map]
  exact congrArg _ hforeign

/-- Every refund of the pool is in one refund map, and nothing else is in any. -/
theorem perm_refundEntries (ht : pool.transactions.Sorted) (hr : pool.scResults.Sorted)
    (hs : signals.Sorted) :
    (c.correlate header body pool signals).refundEntries.Perm pool.refundEntries := by
  have hentries : (c.correlate header body pool signals).refundEntries =
      (touched pool signals).flatMap fun h => (pool.refundsOf h).map fun e => (e.1, h, e.2) := by
    rw [CorrelatedBlock.refundEntries, refundMaps_correlate c header body hs, List.flatMap_map]
  have hnodup : ((touched pool signals).flatMap fun h =>
      (pool.refundsOf h).map fun e => (e.1, h, e.2)).Nodup := by
    refine List.nodup_flatMap.2 ⟨fun h _ => ?_, (nodup_touched ht signals).imp fun {h k} hne => ?_⟩
    · refine (pool.sorted_refundsOf h).nodup.map fun a b he => ?_
      simp only [Prod.mk.injEq, true_and] at he
      exact Prod.ext he.1 he.2
    · intro e ha hb
      obtain ⟨_, -, rfl⟩ := List.mem_map.1 ha
      obtain ⟨_, -, hb⟩ := List.mem_map.1 hb
      exact hne (congrArg (·.2.1) hb).symm
  rw [hentries]
  refine (List.perm_ext_iff_of_nodup hnodup (Pool.nodup_refundEntries hr)).2 fun ⟨id, h, refund⟩ => ?_
  rw [Pool.mem_refundEntries hr, List.mem_flatMap]
  constructor
  · rintro ⟨_, -, hm⟩
    obtain ⟨e, he, hm⟩ := List.mem_map.1 hm
    cases hm
    exact (pool.sorted_refundsOf _).find?_of_mem he
  · intro hf
    exact ⟨h, mem_touched hs (.inl (Pool.mem_origins_of_find?_refundsOf hr hf)),
      List.mem_map.2 ⟨(id, refund), Dict.mem_of_find? hf, rfl⟩⟩

/-- Correlation keeps all of a pool and of its signals. -/
theorem conserves_correlate (ht : pool.transactions.Sorted) (hr : pool.scResults.Sorted)
    (hs : signals.Sorted) : (c.correlate header body pool signals).Conserves pool signals where
  transactions := by
    rw [correlate, List.map_map]
    rfl
  scResults := by
    rw [correlate, List.map_map]
    rfl
  refunds := c.perm_refundEntries header body ht hr hs
  pooledRefunds := by
    intro t hm
    obtain ⟨⟨h, info⟩, -, rfl⟩ := List.mem_map.1 hm
    exact ⟨pool.refundsOf h, rfl, fun id refund => (Pool.mem_refundEntries hr).symm⟩
  foreignRefunds := by
    intro h u hf id refund
    rw [eq_of_find?_foreign hs hf]
    exact (Pool.mem_refundEntries hr).symm
  pooledResults := by
    intro t hm
    obtain ⟨⟨h, info⟩, -, rfl⟩ := List.mem_map.1 hm
    exact List.contains_iff_mem
  foreignResults := by
    intro h u hf
    rw [eq_of_find?_foreign hs hf]
    exact List.contains_iff_mem
  attached := by
    rw [attachedSignals_correlate c header body hs]
    exact hs.perm_filterMap_find? (nodup_touched ht signals) fun h hk => mem_touched hs (.inr hk)
  pooledSignals := by
    intro t hm
    obtain ⟨⟨h, info⟩, -, rfl⟩ := List.mem_map.1 hm
    rfl
  foreignSignals := by
    intro h u hf
    rw [eq_of_find?_foreign hs hf]
  foreign := fun h => mem_keys_foreign hs
  sorted := sorted_foreign pool signals
  apart := by
    intro h hf hp
    have hkeys : (c.correlate header body pool signals).transactions.map (·.record.hash) =
        pool.transactions.keys := by
      rw [correlate, List.map_map]
      rfl
    exact ((mem_keys_foreign hs).1 hf).1 (hkeys ▸ hp)

/-- Results of a pooled transaction and of foreign ones, with and without a refund, and signals of both. -/
theorem conserves_correlate_mixed :
    let result (origin : Bytes) (fee : Amount) : ScResultInfo :=
      { result := { originTxHash := origin }, feeInfo := { fee } }
    let pool : Pool :=
      { transactions := [("aa", {})]
        scResults := [("b1", result [0xaa] ⟨5, by decide⟩), ("b2", result [0xaa] .zero),
          ("b3", result [0xbb] ⟨7, by decide⟩), ("b4", result [0xcc] .zero)] }
    let signals : Dict StatusInfo := [("aa", .ofCompletion), ("dd", .ofFailure)]
    let block := ({} : Correlator).correlate {} {} pool signals
    (pool.transactions.Sorted ∧ pool.scResults.Sorted ∧ signals.Sorted) ∧
      block.Conserves pool signals ∧
      block.refundEntries = [("b1", "aa", ⟨⟨5, by decide⟩, 0⟩), ("b3", "bb", ⟨⟨7, by decide⟩, 0⟩)] ∧
      block.foreign.keys = ["bb", "cc", "dd"] := by
  intro result pool signals block
  have ht : pool.transactions.Sorted := List.pairwise_singleton _ _
  have hr : pool.scResults.Sorted := by
    unfold Dict.Sorted
    decide +kernel
  have hs : signals.Sorted := by
    unfold Dict.Sorted
    decide +kernel
  exact ⟨⟨ht, hr, hs⟩, conserves_correlate _ _ _ ht hr hs, by decide +kernel, by decide +kernel⟩

end Correlator
end ChainIndex
