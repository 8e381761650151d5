import ChainIndex.Correlation.Writes
import ChainIndex.Proofs.Dictionary

/-!
What a block changes of one transaction: all of it if the block holds the transaction, otherwise the
mark of results, the refunds and the signal that its pool has for it. Each transaction is changed at
most once.
-/
namespace ChainIndex

namespace ScResultInfo

def refundTo? (h : String) (info : ScResultInfo) : Option Refund :=
  if info.result.originHash = h then info.refund? else none

end ScResultInfo

namespace Pool

def refundsOf (pool : Pool) (h : String) : Dict Refund := (pool.refunds.find? h).getD []

def addRefund (all : Dict (Dict Refund)) (e : String × ScResultInfo) : Dict (Dict Refund) :=
  match e.2.refund? with
  | some refund => all.alter e.2.result.originHash fun known => (known.getD []).insert e.1 refund
  | none => all

theorem refunds_eq_foldl (pool : Pool) : pool.refunds = pool.scResults.foldl addRefund [] := rfl

theorem find?_addRefund (all : Dict (Dict Refund)) (e : String × ScResultInfo) (h id : String) :
    (((addRefund all e).find? h).getD []).find? id =
      (if e.1 = id then e.2.refundTo? h else none).or (((all.find? h).getD []).find? id) := by
  unfold addRefund ScResultInfo.refundTo?
  cases hr : e.2.refund? with
  | none => simp
  | some refund =>
    rw [Dict.find?_alter]
    by_cases ho : e.2.result.originHash = h
    · subst ho
      by_cases hid : e.1 = id <;> simp [Dict.find?_insert, hid]
    · simp [ho]

/-- Every result is grouped under its origin, with its refund if it has one. -/
theorem find?_foldl_addRefund {results : Dict ScResultInfo} (hs : results.Sorted)
    (all : Dict (Dict Refund)) (h id : String) :
    (((results.foldl addRefund all).find? h).getD []).find? id =
      ((results.find? id).bind (·.refundTo? h)).or (((all.find? h).getD []).find? id) := by
  induction results generalizing all with
  | nil => simp
  | cons e rest ih =>
    obtain ⟨hash, info⟩ := e
    rw [List.foldl_cons, ih (List.pairwise_cons.1 hs).2, find?_addRefund, Dict.find?]
    by_cases hid : hash = id
    · subst hid
      simp [hs.tail_find?]
    · simp [hid]

/-- Refunds are found under the results that carry them. -/
theorem find?_refundsOf {pool : Pool} (hs : pool.scResults.Sorted) (h id : String) :
    (pool.refundsOf h).find? id = (pool.scResults.find? id).bind (·.refundTo? h) := by
  rw [refundsOf, refunds_eq_foldl, find?_foldl_addRefund hs]
  simp

/-- The refunds of a transaction are those of the results that name it as their origin. -/
theorem find?_refundsOf_eq_some_iff {pool : Pool} (hs : pool.scResults.Sorted) {h id : String}
    {refund : Refund} :
    (pool.refundsOf h).find? id = some refund ↔
      ∃ info, pool.scResults.find? id = some info ∧ info.result.originHash = h ∧
        info.refund? = some refund := by
  rw [find?_refundsOf hs, Option.bind_eq_some_iff]
  simp only [ScResultInfo.refundTo?, Option.ite_none_right_eq_some]

structure Grouped (origins : List String) (all : Dict (Dict Refund)) : Prop where
  sorted : all.Sorted
  group : ∀ h refunds, all.find? h = some refunds → h ∈ origins ∧ refunds.Sorted

theorem Grouped.addRefund {origins : List String} {all : Dict (Dict Refund)} (hg : Grouped origins all)
    {e : String × ScResultInfo} (he : e.2.result.originHash ∈ origins) :
    Grouped origins (Pool.addRefund all e) := by
  unfold Pool.addRefund
  cases e.2.refund? with
  | none => exact hg
  | some refund =>
    refine ⟨hg.sorted.alter _ _, fun h refunds hf => ?_⟩
    rw [Dict.find?_alter] at hf
    split at hf
    · next ho =>
      subst ho
      obtain rfl := Option.some.inj hf
      refine ⟨he, Dict.Sorted.insert ?_ e.1 refund⟩
      cases hk : all.find? e.2.result.originHash with
      | none => exact List.Pairwise.nil
      | some known => exact (hg.group _ known hk).2
    · exact hg.group h refunds hf

theorem grouped_refunds (pool : Pool) : Grouped pool.origins pool.refunds := by
  rw [refunds_eq_foldl]
  refine List.foldlRecOn _ _ ⟨List.Pairwise.nil, fun _ _ hf => by cases hf⟩ fun all hg e he => ?_
  exact hg.addRefund (List.mem_map.2 ⟨e, he, rfl⟩)

theorem sorted_refundsOf (pool : Pool) (h : String) : (pool.refundsOf h).Sorted := by
  unfold refundsOf
  cases hf : pool.refunds.find? h with
  | none => exact List.Pairwise.nil
  | some refunds => exact (pool.grouped_refunds.group h refunds hf).2

theorem refundsOf_eq_nil {pool : Pool} {h : String} (hn : h ∉ pool.origins) : pool.refundsOf h = [] := by
  unfold refundsOf
  cases hf : pool.refunds.find? h with
  | none => rfl
  | some refunds => exact absurd (pool.grouped_refunds.group h refunds hf).1 hn

def change (pool : Pool) (all : Dict ForeignUpdate) (hash : String) (f : ForeignUpdate → ForeignUpdate) :
    Dict ForeignUpdate :=
  if !pool.transactions.has hash then all.alter hash fun u => f (u.getD {}) else all

/-- Other transactions stay as they are. -/
theorem find?_change (pool : Pool) (all : Dict ForeignUpdate) (hash : String)
    (f : ForeignUpdate → ForeignUpdate) {h : String} (hn : pool.transactions.has h = false) :
    (pool.change all hash f).find? h =
      if hash = h then some (f ((all.find? h).getD {})) else all.find? h := by
  unfold change
  by_cases he : hash = h
  · subst he
    simp [hn, Dict.find?_alter]
  · rw [if_neg he]
    split
    · rw [Dict.find?_alter, if_neg he]
    · rfl

/-- A transaction that the pool holds gets nothing as a foreign one. -/
theorem find?_change_of_has (pool : Pool) (all : Dict ForeignUpdate) (hash : String)
    (f : ForeignUpdate → ForeignUpdate) {h : String} (hh : pool.transactions.has h = true) :
    (pool.change all hash f).find? h = all.find? h := by
  unfold change
  split
  · next hn =>
    have he : hash ≠ h := fun he => by simp [he, hh] at hn
    simp [Dict.find?_alter, he]
  · rfl

theorem sorted_change (pool : Pool) {all : Dict ForeignUpdate} (hs : all.Sorted) (hash : String)
    (f : ForeignUpdate → ForeignUpdate) : (pool.change all hash f).Sorted := by
  unfold change
  split
  · exact hs.alter _ _
  · exact hs

theorem find?_foldl_mark (pool : Pool) (hashes : List String) (all : Dict ForeignUpdate) {h : String}
    (hn : pool.transactions.has h = false) :
    (hashes.foldl (fun all hash => pool.change all hash fun u => { u with hasScResults := true })
        all).find? h =
      if h ∈ hashes then some { (all.find? h).getD {} with hasScResults := true } else all.find? h := by
  induction hashes generalizing all with
  | nil => simp
  | cons hash rest ih =>
    rw [List.foldl_cons, ih, find?_change _ _ _ _ hn]
    by_cases he : hash = h
    · simp [he]
    · simp [he, Ne.symm he]

/-- Changes by the entries of a dictionary, each under its own key. -/
theorem find?_foldl_change (pool : Pool) {α : Type} {entries : Dict α} (hs : entries.Sorted)
    (f : α → ForeignUpdate → ForeignUpdate) (all : Dict ForeignUpdate) {h : String}
    (hn : pool.transactions.has h = false) :
    (entries.foldl (fun all e => pool.change all e.1 (f e.2)) all).find? h =
      ((entries.find? h).map fun v => f v ((all.find? h).getD {})).or (all.find? h) := by
  induction entries generalizing all with
  | nil => simp
  | cons e rest ih =>
    obtain ⟨hash, v⟩ := e
    rw [List.foldl_cons, ih (List.pairwise_cons.1 hs).2, find?_change _ _ _ _ hn, Dict.find?]
    by_cases he : hash = h
    · subst he
      simp [hs.tail_find?]
    · simp [he]

end Pool

namespace Correlator

open Pool

theorem foreign_eq_foldl (pool : Pool) (signals : Dict StatusInfo) :
    foreign pool signals =
      signals.foldl (fun all e => pool.change all e.1 fun u => { u with signal := some e.2 })
        (pool.refunds.foldl (fun all e => pool.change all e.1 fun u => { u with refunds := e.2 })
          (pool.origins.foldl
            (fun all hash => pool.change all hash fun u => { u with hasScResults := true }) [])) := rfl

theorem sorted_foreign (pool : Pool) (signals : Dict StatusInfo) : (foreign pool signals).Sorted := by
  rw [foreign_eq_foldl]
  refine List.foldlRecOn _ _ ?_ fun all hs e _ => pool.sorted_change hs e.1 _
  refine List.foldlRecOn _ _ ?_ fun all hs e _ => pool.sorted_change hs e.1 _
  exact List.foldlRecOn _ _ List.Pairwise.nil fun all hs hash _ => pool.sorted_change hs hash _

theorem find?_foreign_of_has (pool : Pool) (signals : Dict StatusInfo) {h : String}
    (hh : pool.transactions.has h = true) : (foreign pool signals).find? h = none := by
  have step (all : Dict ForeignUpdate) (hash : String) (f : ForeignUpdate → ForeignUpdate)
      (hf : all.find? h = none) : (pool.change all hash f).find? h = none :=
    (pool.find?_change_of_has all hash f hh).trans hf
  rw [foreign_eq_foldl]
  refine List.foldlRecOn (motive := (Dict.find? · h = none)) _ _ ?_ fun all hf e _ => step all e.1 _ hf
  refine List.foldlRecOn (motive := (Dict.find? · h = none)) _ _ ?_ fun all hf e _ => step all e.1 _ hf
  exact List.foldlRecOn (motive := (Dict.find? · h = none)) _ _ rfl fun all hf hash _ => step all hash _ hf

/-- What a block adds to a transaction that it does not hold, if its results or logs concern it. -/
theorem find?_foreign (pool : Pool) {signals : Dict StatusInfo} (hs : signals.Sorted) {h : String}
    (hn : pool.transactions.has h = false) :
    (foreign pool signals).find? h =
      if h ∈ pool.origins ∨ signals.has h then
        some ⟨pool.origins.contains h, pool.refundsOf h, signals.find? h⟩
      else none := by
  rw [foreign_eq_foldl, pool.find?_foldl_change hs (fun s u => { u with signal := some s }) _ hn,
    pool.find?_foldl_change pool.grouped_refunds.sorted (fun r u => { u with refunds := r }) _ hn,
    pool.find?_foldl_mark _ _ hn, Dict.find?_nil, Dict.has]
  by_cases ho : h ∈ pool.origins
  · unfold Pool.refundsOf
    cases pool.refunds.find? h <;> cases signals.find? h <;> simp [ho]
  · have hnone : pool.refunds.find? h = none := by
      cases hf : pool.refunds.find? h with
      | none => rfl
      | some refunds => exact absurd (pool.grouped_refunds.group h refunds hf).1 ho
    unfold Pool.refundsOf
    cases signals.find? h <;> simp [ho, hnone]

def touched (pool : Pool) (signals : Dict StatusInfo) : List String :=
  pool.transactions.keys ++ (foreign pool signals).keys

theorem nodup_touched {pool : Pool} (ht : pool.transactions.Sorted) (signals : Dict StatusInfo) :
    (touched pool signals).Nodup := by
  refine List.nodup_append.2 ⟨ht.nodup_keys, (sorted_foreign pool signals).nodup_keys, ?_⟩
  rintro h hm _ hf rfl
  have hnone := find?_foreign_of_has pool signals (Dict.has_iff.2 hm)
  exact Dict.find?_eq_none_iff.1 hnone hf

variable (c : Correlator) (header : Header) (body : Body) (pool : Pool) (signals : Dict StatusInfo)

def correlatedTx (h : String) (info : TxInfo) : CorrelatedTx where
  record := c.txRecord h info header (body.miniBlockOf.find? h) (pool.origins.contains h)
  fee := c.absoluteFee info (pool.refundsOf h)
  status := c.passStatus (body.miniBlockOf.find? h)
  signal := signals.find? h

def changes? (h : String) : Option (List Mutation) :=
  match pool.transactions.find? h with
  | some info => some (c.correlatedTx header body pool signals h info).mutations
  | none =>
    if h ∈ pool.origins ∨ signals.has h then
      some (ForeignUpdate.mutations c.denomination
        ⟨pool.origins.contains h, pool.refundsOf h, signals.find? h⟩)
    else none

/-- A block changes the transactions that it holds, and then all foreign ones. -/
theorem changes_eq :
    (c.correlate header body pool signals).changes =
      (pool.transactions.map fun e => (e.1, (c.correlatedTx header body pool signals e.1 e.2).mutations)) ++
        (foreign pool signals).map fun e => (e.1, e.2.mutations c.denomination) := by
  simp only [CorrelatedBlock.changes, correlate, List.map_map]
  rfl

/-- A look-up among the changes of a block. -/
theorem find?_changes (hs : signals.Sorted) (h : String) :
    Dict.find? (c.correlate header body pool signals).changes h = c.changes? header body pool signals h := by
  rw [changes_eq, Dict.find?_append,
    Dict.find?_map pool.transactions fun hash info =>
      (c.correlatedTx header body pool signals hash info).mutations,
    Dict.find?_map (foreign pool signals) fun _ u => u.mutations c.denomination, changes?]
  cases hf : pool.transactions.find? h with
  | some info => rfl
  | none =>
    have hn : pool.transactions.has h = false := by simp [Dict.has, hf]
    rw [find?_foreign pool hs hn]
    split <;> rfl

theorem keys_changes :
    Dict.keys (c.correlate header body pool signals).changes = touched pool signals := by
  rw [changes_eq, Dict.keys_append, Dict.keys_map pool.transactions fun hash info =>
      (c.correlatedTx header body pool signals hash info).mutations,
    Dict.keys_map (foreign pool signals) fun _ u => u.mutations c.denomination, touched]

/-- No transaction is changed twice. -/
theorem nodup_keys_changes (ht : pool.transactions.Sorted) :
    (Dict.keys (c.correlate header body pool signals).changes).Nodup := by
  rw [keys_changes]
  exact nodup_touched ht signals

end Correlator
end ChainIndex
