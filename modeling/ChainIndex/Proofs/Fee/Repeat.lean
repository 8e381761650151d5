import ChainIndex.Proofs.Write.Ordered
import ChainIndex.Proofs.Write.Repeat

/-!
Fee writes made again. What they do to the fee fields of a document depends on these fields only; a
charge that is entered again, and a refund that was seen, change them no more.
-/
namespace ChainIndex

namespace Value

def AgreeOn (keys : List String) (v w : Value) : Prop := ∀ key ∈ keys, v.get? key = w.get? key

variable {keys : List String} {u v w : Value}

theorem AgreeOn.refl (v : Value) : AgreeOn keys v v := fun _ _ => rfl

theorem AgreeOn.symm (h : AgreeOn keys v w) : AgreeOn keys w v := fun key hk => (h key hk).symm

theorem AgreeOn.trans (h : AgreeOn keys u v) (hw : AgreeOn keys v w) : AgreeOn keys u w := fun key hk =>
  (h key hk).trans (hw key hk)

theorem AgreeOn.set (h : AgreeOn keys v w) (key : String) (value : Value) :
    AgreeOn keys (v.set key value) (w.set key value) := by
  intro other ho
  rw [get?_set, get?_set, h other ho]

theorem AgreeOn.eraseFields (h : AgreeOn keys v w) (key : String) :
    AgreeOn keys (.obj (Dict.erase v.fieldsOrEmpty key)) (.obj (Dict.erase w.fieldsOrEmpty key)) := by
  intro other ho
  rw [get?_eraseFields, get?_eraseFields, h other ho]

end Value

namespace Fee

open Value (AgreeOn)

variable {doc other : Value}

theorem storedRefunds_congr (h : AgreeOn fields doc other) : storedRefunds doc = storedRefunds other := by
  unfold storedRefunds
  rw [h refundsField (by decide)]

def adjustFee (onFee : Amount → Amount) (d : Denomination) (doc : Value) : Value :=
  match (doc.get? feeField).bind Value.text? |>.bind Amount.ofText? with
  | some fee => setFee (onFee fee) d doc
  | none => doc

def adjustGas (onGas : UInt64 → UInt64) (doc : Value) : Value :=
  match (doc.get? gasUsedField).bind Value.nat? with
  | some gas => doc.set gasUsedField (.nat (onGas gas))
  | none => doc

theorem adjust_eq (onFee : Amount → Amount) (onGas : UInt64 → UInt64) (d : Denomination) (doc : Value) :
    adjust onFee onGas d doc = adjustGas onGas (adjustFee onFee d doc) := rfl

theorem agreeOn_adjust (h : AgreeOn fields doc other) (onFee : Amount → Amount) (onGas : UInt64 → UInt64)
    (d : Denomination) : AgreeOn fields (adjust onFee onGas d doc) (adjust onFee onGas d other) := by
  have hfee : AgreeOn fields (adjustFee onFee d doc) (adjustFee onFee d other) := by
    unfold adjustFee
    rw [h feeField (by decide)]
    split
    · exact (h.set _ _).set _ _
    · exact h
  rw [adjust_eq, adjust_eq]
  unfold adjustGas
  rw [hfee gasUsedField (by decide)]
  split
  · exact hfee.set _ _
  · exact hfee

theorem agreeOn_setRefunds (h : AgreeOn fields doc other) (refunds : Dict Refund) :
    AgreeOn fields (setRefunds refunds doc) (setRefunds refunds other) := by
  unfold setRefunds
  split
  · exact h.eraseFields _
  · exact h.set _ _

theorem get?_adjust_refunds (onFee : Amount → Amount) (onGas : UInt64 → UInt64) (d : Denomination)
    (doc : Value) : (adjust onFee onGas d doc).get? refundsField = doc.get? refundsField := by
  have hne : feeField ≠ refundsField ∧ feeNumField ≠ refundsField ∧ gasUsedField ≠ refundsField := by decide
  unfold adjust
  dsimp only
  split <;> split <;> simp [setFee, Value.get?_set, hne]

theorem storedRefunds_of_get? {refunds : Dict Refund} (h : doc.get? refundsField = some (refundsValue refunds)) :
    storedRefunds doc = refunds := by
  unfold storedRefunds
  rw [h]
  simp [refundsValue, List.map_map, Function.comp_def]

end Fee

namespace FeeWrite

open Fee
open Value (AgreeOn)

variable {doc other : Value}

/-- A fee write reads and writes the fee fields only. -/
theorem agreeOn_apply (h : AgreeOn Fee.fields doc other) (write : FeeWrite) :
    AgreeOn Fee.fields (write.apply doc) (write.apply other) := by
  have hstored := storedRefunds_congr h
  cases write with
  | absolute fee gasUsed refunds d =>
    unfold apply
    dsimp only
    rw [hstored]
    have hcharge (fee : Amount) (gas : UInt64) : AgreeOn Fee.fields
        ((setFee fee d doc).set gasUsedField (.nat gas)) ((setFee fee d other).set gasUsedField (.nat gas)) :=
      ((h.set _ _).set _ _).set _ _
    split
    · exact hcharge _ _
    · exact (hcharge _ _).set _ _
  | relativeAdjust id refund d =>
    unfold apply
    dsimp only
    rw [hstored]
    split
    · exact h
    · exact agreeOn_adjust (h.set _ _) _ _ d
  | revertRefund id d =>
    unfold apply
    dsimp only
    rw [hstored]
    split
    · exact agreeOn_adjust (agreeOn_setRefunds h _) _ _ d
    · exact h

section Absolute

variable {fee : Amount} {gasUsed : UInt64} {refunds : Dict Refund} {d : Denomination}

/-- A charge keeps the refunds that came before it. -/
theorem storedRefunds_absolute (fee : Amount) (gasUsed : UInt64) (refunds : Dict Refund) (d : Denomination)
    (doc : Value) :
    storedRefunds ((absolute fee gasUsed refunds d).apply doc) = (storedRefunds doc).extend refunds := by
  have hne : feeField ≠ refundsField ∧ feeNumField ≠ refundsField ∧ gasUsedField ≠ refundsField := by decide
  unfold apply
  dsimp only
  split
  · next hkept =>
    -- nothing is kept only if nothing was
    have hnone := List.isEmpty_iff.1 (Dict.isEmpty_of_extend hkept)
    rw [List.isEmpty_iff.1 hkept]
    rw [← hnone]
    simp only [storedRefunds, setFee, Value.get?_set, hne, ↓reduceIte]
  · exact storedRefunds_of_get? (by rw [Value.get?_set, if_pos rfl])

theorem extend_extend {stored refunds : Dict Refund} (hs : stored.Sorted) :
    (stored.extend refunds).extend refunds = stored.extend refunds := by
  refine ((hs.extend refunds).extend refunds).ext (hs.extend refunds) fun key => ?_
  rw [Dict.find?_extend, Dict.find?_extend]
  cases Dict.find? refunds.reverse key <;> rfl

/-- Refunds that the charge knows of do not count as foreign, however often they are entered. -/
theorem filter_extend {stored refunds : Dict Refund} (hs : stored.Sorted) :
    (stored.extend refunds).filter (fun e => !refunds.has e.1) = stored.filter fun e => !refunds.has e.1 := by
  refine ((hs.extend refunds).filter _).ext (hs.filter _) fun key => ?_
  rw [Dict.find?_filter _ fun key => !refunds.has key, Dict.find?_filter _ fun key => !refunds.has key,
    Dict.find?_extend]
  cases hr : refunds.has key with
  | true => rfl
  | false =>
    have hnone : Dict.find? refunds.reverse key = none :=
      Dict.find?_reverse_eq_none (List.Subset.refl _) fun hm => by rw [Dict.has_iff.2 hm] at hr; cases hr
    simp [hnone]

def enter (fee : Amount) (gas : UInt64) (kept : Dict Refund) (d : Denomination) (doc : Value) : Value :=
  let doc := (setFee fee d doc).set gasUsedField (.nat gas)
  if kept.isEmpty then doc else doc.set refundsField (refundsValue kept)

/-- A charge takes the refunds into account that were stored before and are not among its own. -/
theorem absolute_eq_enter (fee : Amount) (gasUsed : UInt64) (refunds : Dict Refund) (d : Denomination)
    (doc : Value) :
    (absolute fee gasUsed refunds d).apply doc =
      enter (fee - (total (Dict.values ((storedRefunds doc).filter fun e => !refunds.has e.1))).1)
        (Saturating.sub gasUsed (total (Dict.values ((storedRefunds doc).filter fun e => !refunds.has e.1))).2)
        ((storedRefunds doc).extend refunds) d doc := rfl

/-- A charge with all refunds, made again, changes nothing. -/
theorem agreeOn_enter_enter (fee : Amount) (gas : UInt64) (kept : Dict Refund) (d : Denomination) (doc : Value) :
    AgreeOn Fee.fields (enter fee gas kept d (enter fee gas kept d doc)) (enter fee gas kept d doc) := by
  intro key _
  unfold enter setFee
  dsimp only
  split
  · simp only [Value.get?_set]
    repeat' split
    all_goals rfl
  · simp only [Value.get?_set]
    repeat' split
    all_goals rfl

/-- A charge entered again stands. -/
theorem absolute_absolute (h : doc.Ordered) :
    AgreeOn Fee.fields ((absolute fee gasUsed refunds d).apply ((absolute fee gasUsed refunds d).apply doc))
      ((absolute fee gasUsed refunds d).apply doc) := by
  have hs := sorted_storedRefunds h
  have hstored := storedRefunds_absolute fee gasUsed refunds d doc
  have hagain := absolute_eq_enter fee gasUsed refunds d ((absolute fee gasUsed refunds d).apply doc)
  rw [hstored, filter_extend hs, extend_extend hs] at hagain
  rw [hagain, absolute_eq_enter fee gasUsed refunds d doc]
  exact agreeOn_enter_enter _ _ _ d doc

end Absolute

section RelativeAdjust

variable {id : String} {refund : Refund} {d : Denomination}

/-- A refund is entered at most once. -/
theorem storedRefunds_relativeAdjust (id : String) (refund : Refund) (d : Denomination) (doc : Value) :
    storedRefunds ((relativeAdjust id refund d).apply doc) =
      if (storedRefunds doc).has id then storedRefunds doc else (storedRefunds doc).insert id refund := by
  unfold apply
  dsimp only
  split
  · rfl
  · refine storedRefunds_of_get? ?_
    rw [get?_adjust_refunds, Value.get?_set, if_pos rfl]

theorem has_relativeAdjust_self (id : String) (refund : Refund) (d : Denomination) (doc : Value) :
    (storedRefunds ((relativeAdjust id refund d).apply doc)).has id = true := by
  rw [storedRefunds_relativeAdjust]
  split
  · next h => exact h
  · simp [Dict.has, Dict.find?_insert]

theorem has_relativeAdjust {other : String} (h : (storedRefunds doc).has other = true) (id : String)
    (refund : Refund) (d : Denomination) :
    (storedRefunds ((relativeAdjust id refund d).apply doc)).has other = true := by
  rw [storedRefunds_relativeAdjust]
  split
  · exact h
  · rw [Dict.has, Dict.find?_insert]
    split
    · rfl
    · exact h

theorem relativeAdjust_of_has (h : (storedRefunds doc).has id = true) (refund : Refund) (d : Denomination) :
    (relativeAdjust id refund d).apply doc = doc := by
  unfold apply
  dsimp only
  rw [if_pos h]

end RelativeAdjust

end FeeWrite

namespace Mutation

open Fee

variable {d : Denomination} {doc : Value}

/-- Refunds that were credited are seen. -/
theorem has_applyAll_refunds {refunds : Dict Refund} {id : String} (h : id ∈ refunds.keys) (doc : Value) :
    (storedRefunds (applyAll (refunds.map fun e => .fee (.relativeAdjust e.1 e.2 d)) doc)).has id = true := by
  obtain ⟨e, he, rfl⟩ := List.mem_map.1 h
  refine Steps.foldl_of_settled (f := fun doc m => apply m doc)
    (P := fun doc => (storedRefunds doc).has e.1 = true) ?_ (List.mem_map_of_mem he) ?_ doc
  · intro m hm doc hd
    obtain ⟨other, -, rfl⟩ := List.mem_map.1 hm
    exact FeeWrite.has_relativeAdjust hd _ _ _
  · exact fun doc => FeeWrite.has_relativeAdjust_self _ _ _ doc

/-- Refunds that are all known change nothing. -/
theorem applyAll_refunds_eq_self {refunds : Dict Refund}
    (h : ∀ id ∈ refunds.keys, (storedRefunds doc).has id = true) :
    applyAll (refunds.map fun e => .fee (.relativeAdjust e.1 e.2 d)) doc = doc := by
  refine Steps.foldl_eq_self fun m hm => ?_
  obtain ⟨e, he, rfl⟩ := List.mem_map.1 hm
  exact FeeWrite.relativeAdjust_of_has (h e.1 (List.mem_map_of_mem he)) _ _

end Mutation
end ChainIndex
