import ChainIndex.Proofs.Fee.Repeat
import ChainIndex.Proofs.Indexer.Repetition
import ChainIndex.Proofs.Write.Touch

/-!
The documents of transactions and of operations when a block is delivered twice. Their fields fall into
those of fees, those of the status and all others, and on each part the block changes nothing more.
-/
namespace ChainIndex

open Value (AgreeOn)

theorem StatusInfo.latch_latch_latch (known first second : StatusInfo) :
    ((known.latch first).latch second).latch first = (known.latch second).latch first := by
  cases hk : known.failed <;> cases hf : first.failed <;> cases hs : second.failed <;>
    cases hc : known.completed <;> cases hd : first.completed <;> cases he : second.completed <;>
    simp [latch, hk, hf, hs, hc, hd, he]

namespace Mutation

variable {doc other : Value} (signals : List StatusInfo)

theorem agreeOn_setStatus (s : StatusInfo) (doc other : Value) :
    AgreeOn StatusInfo.fieldNames (setStatus s doc) (setStatus s other) :=
  fun _ hk => get?_setStatus_of_mem s other doc hk

theorem statusOf_applyAll_latchStatus (doc : Value) :
    statusOf (applyAll (signals.map .latchStatus) doc) = signals.foldl StatusInfo.latch (statusOf doc) := by
  induction signals generalizing doc with
  | nil => rfl
  | cons s rest ih =>
    rw [List.map_cons, applyAll_cons, ih, List.foldl_cons, apply, statusOf_setStatus]

/-- A status that signals were latched onto is what the signals make of the one before. -/
theorem agreeOn_applyAll_latchStatus (h : signals ≠ []) (doc other : Value) :
    AgreeOn StatusInfo.fieldNames (applyAll (signals.map .latchStatus) doc)
      (setStatus (signals.foldl StatusInfo.latch (statusOf doc)) other) := by
  induction signals generalizing doc with
  | nil => exact absurd rfl h
  | cons s rest ih =>
    cases rest with
    | nil => exact agreeOn_setStatus _ _ _
    | cons t more =>
      have hrest := ih (List.cons_ne_nil t more) ((latchStatus s).apply doc)
      rw [apply, statusOf_setStatus] at hrest
      exact hrest

theorem agreeOn_latchStatus_congr (h : AgreeOn StatusInfo.fieldNames doc other) :
    AgreeOn StatusInfo.fieldNames (applyAll (signals.map .latchStatus) doc)
      (applyAll (signals.map .latchStatus) other) := by
  by_cases hs : signals = []
  · subst hs
    exact h
  · have hstatus : statusOf doc = statusOf other := statusOf_congr h
    have hdoc := agreeOn_applyAll_latchStatus signals hs doc other
    rw [hstatus] at hdoc
    exact hdoc.trans (agreeOn_applyAll_latchStatus signals hs other other).symm

/-- Signals latched again change nothing more, in whatever order they come. -/
theorem agreeOn_latchStatus_twice (doc : Value) :
    AgreeOn StatusInfo.fieldNames
      (applyAll (signals.map .latchStatus) (applyAll (signals.map .latchStatus) doc))
      (applyAll (signals.map .latchStatus) doc) := by
  by_cases hs : signals = []
  · subst hs
    exact AgreeOn.refl doc
  · have hagain := agreeOn_applyAll_latchStatus signals hs (applyAll (signals.map .latchStatus) doc) doc
    have hfold : signals.foldl StatusInfo.latch (signals.foldl StatusInfo.latch (statusOf doc)) =
        signals.foldl StatusInfo.latch (statusOf doc) :=
      Steps.foldl_foldl_of_regular (P := fun _ => True) (fun _ _ _ _ => trivial)
        (fun s _ known _ => known.latch_idem s)
        (fun s _ t _ known _ => known.latch_latch_latch s t) trivial
    rw [statusOf_applyAll_latchStatus, hfold] at hagain
    exact hagain.trans (agreeOn_applyAll_latchStatus signals hs doc doc).symm

end Mutation

theorem Indexer.ordered_typing (name : String) : ∀ m ∈ typing name, m.Ordered := by
  intro m hm
  unfold typing at hm
  split at hm
  · rw [List.mem_singleton.1 hm]
    exact Value.isDocument_record (by simp)
  · cases hm

namespace CorrelatedTx

variable (tx : CorrelatedTx) (name : String) {doc : Value}

def enterInto (tx : CorrelatedTx) (name : String) (doc : Value) : Value :=
  Mutation.applyAll (tx.mutations ++ Indexer.typing name) doc

/-- In the fields of the fee, the write of a transaction is that of its fee. -/
theorem agreeOn_enterInto_fee (doc : Value) : AgreeOn Fee.fields (tx.enterInto name doc) (tx.fee.apply doc) := by
  intro key hk
  have htype : "type" ≠ key := by
    rintro rfl
    exact absurd hk (by decide)
  have hstatus := Fee.not_mem_fieldNames hk
  have hrecord : ∀ key ∈ Fee.fields, tx.record.toJson.toValue.get? key = none :=
    fun key hk => tx.record.get?_toValue_of_mem_fee hk
  unfold enterInto mutations
  rw [Mutation.applyAll_append, Indexer.get?_typing, if_neg fun h => htype h.2, Mutation.applyAll_append,
    Mutation.get?_applyAll_latchStatus _ _ hstatus]
  cases tx.status.signal? with
  | some signal =>
    have hmerged : AgreeOn Fee.fields (tx.record.toJson.toValue.merge doc) doc := fun key hk => by
      rw [Value.get?_merge tx.record.isFlat_toValue, hrecord key hk, Option.none_or]
    simp only [Mutation.applyAll_cons, Mutation.applyAll_nil, Mutation.apply]
    rw [Mutation.get?_setStatus_of_not_mem _ _ hstatus]
    exact FeeWrite.agreeOn_apply hmerged tx.fee key hk
  | none =>
    have hlabel : "status" ≠ key := fun he => hstatus (he ▸ by decide)
    have hmerged : AgreeOn Fee.fields (tx.record.toJson.toValue.mergeAbsent doc) doc := fun key hk => by
      rw [Value.get?_mergeAbsent, hrecord key hk, Option.or_none]
    simp only [Mutation.applyAll_cons, Mutation.applyAll_nil, Mutation.apply]
    rw [Value.get?_mergeAbsent, Value.get?_record_singleton, if_neg hlabel, Option.or_none]
    exact FeeWrite.agreeOn_apply hmerged tx.fee key hk

def labelled (doc : Value) : Value :=
  if tx.status.signal?.isSome then doc else (Value.record [("status", .str TxStatus.pending.label)]).mergeAbsent doc

/-- In the fields of the status, it is that of its signals, after the label. -/
theorem agreeOn_enterInto_status (doc : Value) :
    AgreeOn StatusInfo.fieldNames (tx.enterInto name doc)
      (Mutation.applyAll (tx.signals.map .latchStatus) (tx.labelled doc)) := by
  have hrecord : ∀ key ∈ StatusInfo.fieldNames, tx.record.toJson.toValue.get? key = none :=
    fun key hk => tx.record.get?_toValue_of_mem_status hk
  have htyped : AgreeOn StatusInfo.fieldNames (tx.enterInto name doc) (Mutation.applyAll tx.mutations doc) := by
    intro key hk
    unfold enterInto
    rw [Mutation.applyAll_append, Indexer.get?_typing, if_neg]
    rintro ⟨-, rfl⟩
    exact absurd hk (by decide)
  refine htyped.trans ?_
  unfold mutations signals labelled
  rw [Mutation.applyAll_append, List.map_append, Mutation.applyAll_append]
  refine Mutation.agreeOn_latchStatus_congr _ ?_
  cases tx.status.signal? with
  | some signal =>
    refine Mutation.agreeOn_latchStatus_congr [signal] fun key hk => ?_
    exact (FeeWrite.get?_apply_of_not_mem tx.fee (tx.record.toJson.toValue.merge doc) (StatusInfo.not_mem_fields hk)).trans
      (by rw [Value.get?_merge tx.record.isFlat_toValue, hrecord key hk, Option.none_or]; rfl)
  | none =>
    intro key hk
    simp only [Mutation.applyAll_cons, Mutation.applyAll_nil, Mutation.apply, Value.get?_mergeAbsent,
      FeeWrite.get?_apply_of_not_mem tx.fee _ (StatusInfo.not_mem_fields hk), hrecord key hk, Option.or_none, Option.toList_none,
      List.map_nil, Option.isSome_none, Bool.false_eq_true, ↓reduceIte]

theorem agreeOn_labelled_congr {other : Value} (h : AgreeOn StatusInfo.fieldNames doc other) :
    AgreeOn StatusInfo.fieldNames (tx.labelled doc) (tx.labelled other) := by
  unfold labelled
  split
  · exact h
  · intro key hk
    rw [Value.get?_mergeAbsent, Value.get?_mergeAbsent, h key hk]

/-- No signal takes the label away. -/
theorem agreeOn_labelled_latched (doc : Value) :
    AgreeOn StatusInfo.fieldNames
      (tx.labelled (Mutation.applyAll (tx.signals.map .latchStatus) (tx.labelled doc)))
      (Mutation.applyAll (tx.signals.map .latchStatus) (tx.labelled doc)) := by
  intro key hk
  cases hs : tx.status.signal?.isSome with
  | true => simp [labelled, hs]
  | false =>
    have hshown : ((Mutation.applyAll (tx.signals.map .latchStatus) (tx.labelled doc)).get? "status").isSome =
        true := by
      by_cases hsignals : tx.signals = []
      · simp [hsignals, labelled, hs, Value.get?_mergeAbsent]
      · rw [Mutation.agreeOn_applyAll_latchStatus _ hsignals (tx.labelled doc) doc "status" (by decide),
          Mutation.get?_setStatus, if_pos rfl]
        rfl
    generalize Mutation.applyAll (tx.signals.map .latchStatus) (tx.labelled doc) = latched at hshown ⊢
    unfold labelled
    rw [hs, if_neg Bool.false_ne_true, Value.get?_mergeAbsent, Value.get?_record_singleton]
    split
    · next he =>
      subst he
      obtain ⟨v, hv⟩ := Option.isSome_iff_exists.1 hshown
      rw [hv]
      rfl
    · rw [Option.or_none]

/-- All other fields are of the record, which replaces what is stored or gives way to it. -/
theorem get?_enterInto (doc : Value) {key : String} (hfee : key ∉ Fee.fields)
    (hstatus : key ∉ StatusInfo.fieldNames) :
    (tx.enterInto name doc).get? key =
      if name = Index.operations ∧ "type" = key then some (.str "normal")
      else if tx.status.signal?.isSome then (tx.record.toJson.toValue.get? key).or (doc.get? key)
      else (doc.get? key).or (tx.record.toJson.toValue.get? key) := by
  unfold enterInto
  rw [Mutation.applyAll_append, Indexer.get?_typing, tx.get?_mutations doc hfee hstatus]

theorem ordered_mutations : ∀ m ∈ tx.mutations ++ Indexer.typing name, m.Ordered := by
  have hrecord : tx.record.toJson.toValue.IsDocument :=
    ⟨tx.record.isFlat_toValue.record, Json.ordered_toValue _⟩
  have hlabel : (Value.record [("status", .str TxStatus.pending.label)]).IsDocument :=
    Value.isDocument_record (by simp)
  intro m hm
  rcases List.mem_append.1 hm with hm | hm
  · rcases List.mem_append.1 hm with hm | hm
    · split at hm
      · simp only [List.mem_cons, List.not_mem_nil, or_false] at hm
        rcases hm with rfl | rfl | rfl
        · exact hrecord
        · trivial
        · trivial
      · simp only [List.mem_cons, List.not_mem_nil, or_false] at hm
        rcases hm with rfl | rfl | rfl
        · exact hrecord.ordered
        · trivial
        · exact hlabel.ordered
    · obtain ⟨signal, -, rfl⟩ := List.mem_map.1 hm
      trivial
  · exact Indexer.ordered_typing name m hm

/-- A block that holds the transaction enters nothing more when it is delivered again. -/
theorem settle_mutations {fee : Amount} {gas : UInt64} {refunds : Dict Refund} {d : Denomination}
    (hfee : tx.fee = .absolute fee gas refunds d) :
    Mutation.Settle (tx.mutations ++ Indexer.typing name) := by
  intro doc hd
  refine Mutation.applyAll_twice (tx.ordered_mutations name) hd fun key => ?_
  change (tx.enterInto name (tx.enterInto name doc)).get? key = (tx.enterInto name doc).get? key
  by_cases hf : key ∈ Fee.fields
  · have hentered := tx.agreeOn_enterInto_fee name doc
    have hagain := tx.agreeOn_enterInto_fee name (tx.enterInto name doc)
    have hcharged : AgreeOn Fee.fields (tx.fee.apply (tx.fee.apply doc)) (tx.fee.apply doc) := by
      rw [hfee]
      exact FeeWrite.absolute_absolute hd.ordered
    exact (((hagain.trans (FeeWrite.agreeOn_apply hentered tx.fee)).trans hcharged).trans hentered.symm) key hf
  by_cases hs : key ∈ StatusInfo.fieldNames
  · have hentered := tx.agreeOn_enterInto_status name doc
    have hlabelled := (tx.agreeOn_labelled_congr hentered).trans (tx.agreeOn_labelled_latched doc)
    have hagain := (tx.agreeOn_enterInto_status name (tx.enterInto name doc)).trans
      (Mutation.agreeOn_latchStatus_congr tx.signals hlabelled)
    exact ((hagain.trans (Mutation.agreeOn_latchStatus_twice tx.signals _)).trans hentered.symm) key hs
  · rw [tx.get?_enterInto name (tx.enterInto name doc) hf hs, tx.get?_enterInto name doc hf hs]
    split
    · rfl
    · split
      · cases tx.record.toJson.toValue.get? key <;> rfl
      · cases doc.get? key <;> cases tx.record.toJson.toValue.get? key <;> rfl

end CorrelatedTx

namespace ForeignUpdate

variable (u : ForeignUpdate) (d : Denomination) (name : String) {doc : Value}

theorem ordered_mutations : ∀ m ∈ u.mutations d ++ Indexer.typing name, m.Ordered := by
  intro m hm
  rcases List.mem_append.1 hm with hm | hm
  · rcases List.mem_append.1 hm with hm | hm
    · rcases List.mem_append.1 hm with hm | hm
      · split at hm
        · rw [List.mem_singleton.1 hm]
          exact Value.isDocument_record (by simp)
        · cases hm
      · obtain ⟨e, -, rfl⟩ := List.mem_map.1 hm
        trivial
    · obtain ⟨signal, -, rfl⟩ := List.mem_map.1 hm
      trivial
  · exact Indexer.ordered_typing name m hm

theorem agreeOn_addTo_fee (doc : Value) :
    AgreeOn Fee.fields (u.addTo d name doc)
      (Mutation.applyAll (u.refunds.map fun e => .fee (.relativeAdjust e.1 e.2 d)) (u.marked doc)) := by
  intro key hk
  have htype : "type" ≠ key := by
    rintro rfl
    exact absurd hk (by decide)
  unfold addTo
  rw [Mutation.applyAll_append, Indexer.get?_typing, if_neg fun h => htype h.2, mutations_eq,
    Mutation.applyAll_append, Mutation.applyAll_append,
    Mutation.get?_applyAll_latchStatus _ _ (Fee.not_mem_fieldNames hk)]
  rfl

theorem agreeOn_marked (doc : Value) : AgreeOn Fee.fields (u.marked doc) doc := by
  intro key hk
  rw [get?_marked, if_neg]
  rintro ⟨-, rfl⟩
  exact absurd hk (by decide)

/-- A block that does not hold the transaction adds nothing more when it is delivered again. -/
theorem settle_mutations : Mutation.Settle (u.mutations d ++ Indexer.typing name) := by
  intro doc hd
  refine Mutation.applyAll_twice (u.ordered_mutations d name) hd fun key => ?_
  change (u.addTo d name (u.addTo d name doc)).get? key = (u.addTo d name doc).get? key
  by_cases hf : key ∈ Fee.fields
  · have hadded := u.agreeOn_addTo_fee d name doc
    have hmarked := u.agreeOn_marked (u.addTo d name doc)
    have hseen : ∀ id ∈ u.refunds.keys, (Fee.storedRefunds (u.marked (u.addTo d name doc))).has id = true := by
      intro id hid
      rw [Fee.storedRefunds_congr (hmarked.trans hadded)]
      exact Mutation.has_applyAll_refunds hid _
    have hagain := u.agreeOn_addTo_fee d name (u.addTo d name doc)
    rw [Mutation.applyAll_refunds_eq_self hseen] at hagain
    exact (hagain.trans hmarked) key hf
  by_cases hs : key ∈ StatusInfo.fieldNames
  · rw [u.get?_addTo_status d name _ hs]
    cases hsignal : u.signal with
    | none => rfl
    | some signal =>
      have hlatched : AgreeOn StatusInfo.fieldNames (u.addTo d name doc)
          (Mutation.setStatus ((Mutation.statusOf doc).latch signal) doc) := fun key hk => by
        rw [u.get?_addTo_status d name doc hk, hsignal]
      dsimp only
      rw [Mutation.statusOf_congr hlatched, Mutation.statusOf_setStatus, StatusInfo.latch_idem,
        hlatched key hs]
      exact Mutation.get?_setStatus_of_mem _ _ _ hs
  · rw [u.get?_addTo d name (u.addTo d name doc) hf hs, u.get?_addTo d name doc hf hs]
    repeat' split
    all_goals rfl

end ForeignUpdate

end ChainIndex
