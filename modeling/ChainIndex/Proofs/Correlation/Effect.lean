import ChainIndex.Proofs.Correlation.Changes
import ChainIndex.Proofs.Correlation.Credit
import ChainIndex.Proofs.Correlation.Record
import ChainIndex.Proofs.Write.Ordered

/-!
What the changes of a block do to a document: to its ledger, to its status, and to all other fields.
-/
namespace ChainIndex

variable {d : Denomination} {l : Ledger} {doc : Value}

namespace Mutation

/-- Signals leave all fields but those of the status alone. -/
theorem get?_applyAll_latchStatus (signals : List StatusInfo) (doc : Value) {key : String}
    (hk : key ∉ StatusInfo.fieldNames) :
    (applyAll (signals.map .latchStatus) doc).get? key = doc.get? key := by
  induction signals generalizing doc with
  | nil => rfl
  | cons s rest ih => exact (ih _).trans (get?_setStatus_of_not_mem _ doc hk)

theorem isRecord_applyAll_latchStatus (signals : List StatusInfo) (h : doc.IsRecord) :
    (applyAll (signals.map .latchStatus) doc).IsRecord := by
  induction signals generalizing doc with
  | nil => exact h
  | cons s rest ih => exact ih (isRecord_setStatus h _)

end Mutation

theorem Fee.not_mem_fieldNames {key : String} (h : key ∈ Fee.fields) : key ∉ StatusInfo.fieldNames := by
  simp only [fields, List.mem_cons, List.not_mem_nil, or_false] at h
  rcases h with rfl | rfl | rfl | rfl <;> decide

theorem StatusInfo.not_mem_fields {key : String} (h : key ∈ fieldNames) : key ∉ Fee.fields :=
  fun hf => Fee.not_mem_fieldNames hf h

namespace Ledger

/-- Only the fee fields count. -/
theorem Shows.of_get? (h : l.Shows d doc) {other : Value} (hr : other.IsRecord)
    (same : ∀ key ∈ Fee.fields, other.get? key = doc.get? key) : l.Shows d other where
  record := hr
  sorted := h.sorted
  fee := (same _ (by simp [Fee.fields])).trans h.fee
  feeNum := (same _ (by simp [Fee.fields])).trans h.feeNum
  gasUsed := (same _ (by simp [Fee.fields])).trans h.gasUsed
  refunds := (same _ (by simp [Fee.fields])).trans h.refunds

theorem Shows.merge (h : l.Shows d doc) {patch : Value} (hp : patch.IsFlat)
    (free : ∀ key ∈ Fee.fields, patch.get? key = none) : l.Shows d (patch.merge doc) :=
  h.of_get? (Value.IsRecord.merge hp.record h.record) fun key hk => by
    rw [Value.get?_merge hp, free key hk, Option.none_or]

theorem Shows.mergeAbsent (h : l.Shows d doc) {patch : Value}
    (free : ∀ key ∈ Fee.fields, patch.get? key = none) : l.Shows d (patch.mergeAbsent doc) :=
  h.of_get? (h.record.mergeAbsent patch) fun key hk => by
    rw [Value.get?_mergeAbsent, free key hk, Option.or_none]

theorem Shows.latchAll (h : l.Shows d doc) (signals : List StatusInfo) :
    l.Shows d (Mutation.applyAll (signals.map .latchStatus) doc) :=
  h.of_get? (Mutation.isRecord_applyAll_latchStatus signals h.record) fun _ hk =>
    Mutation.get?_applyAll_latchStatus signals doc (Fee.not_mem_fieldNames hk)

end Ledger

namespace TransactionRecord

def foreignFields : List String := "type" :: (Fee.fields ++ StatusInfo.fieldNames)

theorem get?_toValue_of_mem (r : TransactionRecord) {key : String} (hk : key ∈ foreignFields) :
    r.toJson.toValue.get? key = none := by
  refine r.get?_toValue_eq_none ?_
  simp only [foreignFields, Fee.fields, StatusInfo.fieldNames, List.cons_append, List.nil_append,
    List.mem_cons, List.not_mem_nil, or_false] at hk
  rcases hk with rfl | rfl | rfl | rfl | rfl | rfl | rfl | rfl <;> decide

theorem get?_toValue_of_mem_fee (r : TransactionRecord) {key : String} (hk : key ∈ Fee.fields) :
    r.toJson.toValue.get? key = none :=
  r.get?_toValue_of_mem (List.mem_cons_of_mem _ (List.mem_append_left _ hk))

theorem get?_toValue_of_mem_status (r : TransactionRecord) {key : String} (hk : key ∈ StatusInfo.fieldNames) :
    r.toJson.toValue.get? key = none :=
  r.get?_toValue_of_mem (List.mem_cons_of_mem _ (List.mem_append_right _ hk))

end TransactionRecord

namespace CorrelatedTx

variable (tx : CorrelatedTx)

/-- A block that holds a transaction enters its charge. -/
theorem shows_mutations (hd : tx.fee.denomination = d) (h : l.Shows d doc) :
    (l.after tx.fee).Shows d (Mutation.applyAll tx.mutations doc) := by
  have hfree : ∀ key ∈ Fee.fields, tx.record.toJson.toValue.get? key = none :=
    fun key hk => tx.record.get?_toValue_of_mem_fee hk
  unfold mutations
  rw [Mutation.applyAll_append]
  refine Ledger.Shows.latchAll ?_ _
  cases tx.status.signal? with
  | some signal =>
    have hmerged := (h.merge tx.record.isFlat_toValue hfree).apply hd
    exact hmerged.latchAll [signal]
  | none =>
    have hmerged := (h.mergeAbsent hfree).apply hd
    refine Ledger.Shows.mergeAbsent hmerged fun key hk => ?_
    rw [Value.get?_record_singleton, if_neg]
    rintro rfl
    exact absurd hk (by decide)

/-- The record of the executing block replaces what is stored, that of the sending block fills it up. -/
theorem get?_mutations (doc : Value) {key : String} (hfee : key ∉ Fee.fields)
    (hstatus : key ∉ StatusInfo.fieldNames) :
    (Mutation.applyAll tx.mutations doc).get? key =
      if tx.status.signal?.isSome then (tx.record.toJson.toValue.get? key).or (doc.get? key)
      else (doc.get? key).or (tx.record.toJson.toValue.get? key) := by
  unfold mutations
  rw [Mutation.applyAll_append, Mutation.get?_applyAll_latchStatus _ _ hstatus]
  cases tx.status.signal? with
  | some signal =>
    simp only [Mutation.applyAll_cons, Mutation.applyAll_nil, Mutation.apply]
    rw [Mutation.get?_setStatus_of_not_mem _ _ hstatus, FeeWrite.get?_apply_of_not_mem _ _ hfee,
      Value.get?_merge tx.record.isFlat_toValue]
    rfl
  | none =>
    have hlabel : "status" ≠ key := fun he => hstatus (he ▸ by decide)
    simp only [Mutation.applyAll_cons, Mutation.applyAll_nil, Mutation.apply]
    rw [Value.get?_mergeAbsent, Value.get?_record_singleton, if_neg hlabel, Option.or_none,
      FeeWrite.get?_apply_of_not_mem _ _ hfee, Value.get?_mergeAbsent]
    rfl

def signals : List StatusInfo := tx.status.signal?.toList ++ tx.signal.toList

def label (known : Option String) : Option String :=
  if tx.status.signal?.isSome then known else known.or (some TxStatus.pending.label)

theorem showsStatus_mutations {known : Option StatusInfo} {label : Option String}
    (h : StatusInfo.Shows known label doc) :
    StatusInfo.Shows (tx.signals.foldl (StatusInfo.latchOn (tx.label label)) known) (tx.label label)
      (Mutation.applyAll tx.mutations doc) := by
  have hrecord : ∀ key ∈ StatusInfo.fieldNames, tx.record.toJson.toValue.get? key = none :=
    fun key hk => tx.record.get?_toValue_of_mem_status hk
  unfold mutations signals CorrelatedTx.label
  rw [Mutation.applyAll_append, List.foldl_append]
  refine Mutation.Shows.latchAll ?_ _
  cases tx.status.signal? with
  | some signal =>
    have hkept : StatusInfo.Shows known label (tx.fee.apply (tx.record.toJson.toValue.merge doc)) :=
      h.of_get? fun key hk => by
        rw [FeeWrite.get?_apply_of_not_mem _ _ (StatusInfo.not_mem_fields hk), Value.get?_merge tx.record.isFlat_toValue,
          hrecord key hk, Option.none_or]
    exact Mutation.Shows.latchAll hkept [signal]
  | none =>
    have hkept : StatusInfo.Shows known label (tx.fee.apply (tx.record.toJson.toValue.mergeAbsent doc)) :=
      h.of_get? fun key hk => by
        rw [FeeWrite.get?_apply_of_not_mem _ _ (StatusInfo.not_mem_fields hk), Value.get?_mergeAbsent, hrecord key hk,
          Option.or_none]
    refine ⟨?_, ?_, ?_⟩ <;>
      simp only [Mutation.applyAll_cons, Mutation.applyAll_nil, Mutation.apply, Value.get?_mergeAbsent,
        Value.get?_record_singleton]
    · simpa using hkept.completed
    · simpa using hkept.failed
    · rw [hkept.status]
      cases known <;> cases label <;> simp

end CorrelatedTx

namespace ForeignUpdate

variable (u : ForeignUpdate)

/-- What a block adds to a foreign transaction: the mark, the refunds and the signal, in this order. -/
theorem mutations_eq (d : Denomination) :
    u.mutations d =
      (if u.hasScResults then [.merge (.record [(Rollback.hasScResults, .bool true)])] else []) ++
        (u.refunds.map fun e => .fee (.relativeAdjust e.1 e.2 d)) ++ u.signal.toList.map .latchStatus := rfl

theorem shows_credited (refunds : Dict Refund) (h : l.Shows d doc) :
    (l.credited d refunds).Shows d
      (Mutation.applyAll (refunds.map fun e => .fee (.relativeAdjust e.1 e.2 d)) doc) := by
  induction refunds generalizing l doc with
  | nil => exact h
  | cons e rest ih => exact ih (h.apply rfl)

/-- Refunds change the fields of the fee and no others. -/
theorem get?_credited (d : Denomination) (refunds : Dict Refund) (doc : Value) {key : String}
    (hfee : key ∉ Fee.fields) :
    (Mutation.applyAll (refunds.map fun e => .fee (.relativeAdjust e.1 e.2 d)) doc).get? key =
      doc.get? key := by
  induction refunds generalizing doc with
  | nil => rfl
  | cons e rest ih => exact (ih _).trans (FeeWrite.get?_apply_of_not_mem (.relativeAdjust e.1 e.2 d) doc hfee)

def marked (doc : Value) : Value :=
  Mutation.applyAll
    (if u.hasScResults then [.merge (.record [(Rollback.hasScResults, .bool true)])] else []) doc

theorem get?_marked (doc : Value) (key : String) :
    (u.marked doc).get? key =
      if u.hasScResults ∧ Rollback.hasScResults = key then some (.bool true) else doc.get? key := by
  unfold marked
  cases u.hasScResults with
  | false => simp
  | true =>
    have hflat := Value.isFlat_record_singleton Rollback.hasScResults (.bool true) rfl
    simp only [↓reduceIte, Mutation.applyAll_cons, Mutation.applyAll_nil, Mutation.apply,
      Value.get?_merge hflat, Value.get?_record_singleton, true_and]
    split <;> simp

theorem isRecord_marked (h : doc.IsRecord) : (u.marked doc).IsRecord := by
  unfold marked
  cases u.hasScResults with
  | false => exact h
  | true => exact (Value.isRecord_record _).merge h

/-- A block that does not hold the transaction enters the refunds that are new. -/
theorem shows_mutations (h : l.Shows d doc) :
    (l.credited d u.refunds).Shows d (Mutation.applyAll (u.mutations d) doc) := by
  have hmarked : l.Shows d (u.marked doc) := by
    refine h.of_get? (u.isRecord_marked h.record) fun key hk => ?_
    rw [get?_marked, if_neg]
    rintro ⟨-, rfl⟩
    exact absurd hk (by decide)
  rw [mutations_eq, Mutation.applyAll_append, Mutation.applyAll_append]
  exact (shows_credited u.refunds hmarked).latchAll _

/-- A block that does not hold the transaction adds no field but the mark. -/
theorem get?_mutations (d : Denomination) (doc : Value) {key : String} (hfee : key ∉ Fee.fields)
    (hstatus : key ∉ StatusInfo.fieldNames) :
    (Mutation.applyAll (u.mutations d) doc).get? key =
      if u.hasScResults ∧ Rollback.hasScResults = key then some (.bool true) else doc.get? key := by
  rw [mutations_eq, Mutation.applyAll_append, Mutation.applyAll_append,
    Mutation.get?_applyAll_latchStatus _ _ hstatus, get?_credited _ _ _ hfee]
  exact u.get?_marked doc key

theorem showsStatus_mutations {known : Option StatusInfo} {label : Option String}
    (h : StatusInfo.Shows known label doc) (d : Denomination) :
    StatusInfo.Shows (u.signal.toList.foldl (StatusInfo.latchOn label) known) label
      (Mutation.applyAll (u.mutations d) doc) := by
  rw [mutations_eq, Mutation.applyAll_append, Mutation.applyAll_append]
  refine Mutation.Shows.latchAll (h.of_get? fun key hk => ?_) _
  have hfee : key ∉ Fee.fields := StatusInfo.not_mem_fields hk
  refine (get?_credited d u.refunds _ hfee).trans ((u.get?_marked doc key).trans (if_neg ?_))
  rintro ⟨-, rfl⟩
  exact absurd hk (by decide)

end ForeignUpdate

/-- Every transaction is an operation of the type `normal`. -/
theorem CorrelatedBlock.get?_operationType (doc : Value) (key : String) :
    (operationType.apply doc).get? key = if "type" = key then some (.str "normal") else doc.get? key := by
  have hflat := Value.isFlat_record_singleton "type" (.str "normal") rfl
  simp only [operationType, Mutation.apply, Value.get?_merge hflat, Value.get?_record_singleton]
  split <;> simp

theorem CorrelatedBlock.isRecord_operationType (h : doc.IsRecord) : (operationType.apply doc).IsRecord :=
  (Value.isRecord_record _).merge h
end ChainIndex
