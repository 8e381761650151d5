import ChainIndex.Proofs.Decimal
import ChainIndex.Proofs.Fields
import ChainIndex.Write.Fee

/-!
The ledger that a document shows in its fee fields. Fee writes act on ledgers, and on documents as
they act on the ledgers shown; every other field of a document stands.
-/
namespace ChainIndex

/-- Fee and gas, once a block that holds the transaction has written them, and all refunds seen. -/
@[ext]
structure Ledger where
  charge : Option (Amount × UInt64) := none
  refunds : Dict Refund := []

namespace Fee

def fields : List String := [feeField, feeNumField, gasUsedField, refundsField]

end Fee

namespace FeeWrite

def denomination : FeeWrite → Denomination
  | absolute _ _ _ d => d
  | relativeAdjust _ _ d => d
  | revertRefund _ d => d

end FeeWrite

namespace Ledger

open Fee

def adjust (onFee : Amount → Amount) (onGas : UInt64 → UInt64) (l : Ledger) : Ledger :=
  { l with charge := l.charge.map fun c => (onFee c.1, onGas c.2) }

def after (l : Ledger) : FeeWrite → Ledger
  | .absolute fee gasUsed refunds _ =>
    let foreign := Fee.total (Dict.values (l.refunds.filter fun e => !refunds.has e.1))
    { charge := some (fee - foreign.1, Saturating.sub gasUsed foreign.2)
      refunds := l.refunds.extend refunds }
  | .relativeAdjust id refund _ =>
    if l.refunds.has id then l
    else
      { l with refunds := l.refunds.insert id refund }.adjust (· - refund.fee)
        (Saturating.sub · refund.gasRefunded)
  | .revertRefund id _ =>
    match l.refunds.find? id with
    | some refund =>
      { l with refunds := l.refunds.erase id }.adjust (· + refund.fee)
        (Saturating.add · refund.gasRefunded)
    | none => l

structure Shows (d : Denomination) (l : Ledger) (doc : Value) : Prop where
  record : doc.IsRecord
  sorted : l.refunds.Sorted
  fee : doc.get? feeField = l.charge.map fun c => .str c.1.text
  feeNum : doc.get? feeNumField = l.charge.map fun c => .double (d.toDouble c.1)
  gasUsed : doc.get? gasUsedField = l.charge.map fun c => .nat c.2
  refunds : doc.get? refundsField = if l.refunds.isEmpty then none else some (refundsValue l.refunds)

variable {d : Denomination} {l : Ledger} {doc : Value}

theorem shows_empty : Shows d {} .empty :=
  ⟨Value.isRecord_empty, List.Pairwise.nil, rfl, rfl, rfl, rfl⟩

@[simp] theorem refundOfValue_toValue (r : Refund) : refundOfValue (refundToValue r) = r := by
  simp [refundOfValue, refundToValue, Value.get?_record, Dict.find?, Value.text?, Value.nat?]

/-- Reading the refunds of a document gives the ledger's. -/
theorem Shows.storedRefunds (h : Shows d l doc) : Fee.storedRefunds doc = l.refunds := by
  unfold Fee.storedRefunds
  rw [h.refunds]
  cases hr : l.refunds with
  | nil => rfl
  | cons e rest => simp [refundsValue, List.map_map, Function.comp_def]

/-- Documents that show one ledger have the same fee fields. -/
theorem Shows.get?_eq (h : Shows d l doc) {other : Value} (ho : Shows d l other) {key : String}
    (hk : key ∈ Fee.fields) :
    other.get? key = doc.get? key := by
  simp only [Fee.fields, List.mem_cons, List.not_mem_nil, or_false] at hk
  rcases hk with rfl | rfl | rfl | rfl
  · rw [ho.fee, h.fee]
  · rw [ho.feeNum, h.feeNum]
  · rw [ho.gasUsed, h.gasUsed]
  · rw [ho.refunds, h.refunds]

/-- A document that shows the same refunds still shows the ledger when only they were written. -/
theorem Shows.setRefunds (h : Shows d l doc) {refunds : Dict Refund} (hs : refunds.Sorted) :
    Shows d { l with refunds } (Fee.setRefunds refunds doc) := by
  unfold Fee.setRefunds
  split
  · next he =>
    refine ⟨h.record.eraseFields _, hs, ?_, ?_, ?_, ?_⟩ <;> rw [Value.get?_eraseFields]
    · simpa [refundsField, feeField] using h.fee
    · simpa [refundsField, feeNumField] using h.feeNum
    · simpa [refundsField, gasUsedField] using h.gasUsed
    · simp [he]
  · next he =>
    refine ⟨h.record.set _ _, hs, ?_, ?_, ?_, ?_⟩ <;> rw [Value.get?_set]
    · simpa [refundsField, feeField] using h.fee
    · simpa [refundsField, feeNumField] using h.feeNum
    · simpa [refundsField, gasUsedField] using h.gasUsed
    · simp [he]

theorem Shows.setCharge (h : Shows d l doc) (fee : Amount) (gas : UInt64) :
    Shows d { l with charge := some (fee, gas) } ((setFee fee d doc).set gasUsedField (.nat gas)) := by
  refine ⟨((h.record.set _ _).set _ _).set _ _, h.sorted, ?_, ?_, ?_, ?_⟩ <;>
    simp only [setFee, Value.get?_set]
  · simp [feeField, feeNumField, gasUsedField]
  · simp [feeNumField, gasUsedField]
  · simp
  · simpa [refundsField, feeField, feeNumField, gasUsedField] using h.refunds

/-- The fields of a document follow the ledger, the written double too. -/
theorem Shows.adjust (h : Shows d l doc) (onFee : Amount → Amount) (onGas : UInt64 → UInt64) :
    Shows d (l.adjust onFee onGas) (Fee.adjust onFee onGas d doc) := by
  cases hc : l.charge with
  | none =>
    have he : l.adjust onFee onGas = l := by
      cases l
      cases hc
      rfl
    have hf := h.fee
    have hg := h.gasUsed
    rw [hc] at hf hg
    simpa [Fee.adjust, hf, hg, he] using h
  | some c =>
    obtain ⟨fee, gas⟩ := c
    have hf := h.fee
    have hg : (setFee (onFee fee) d doc).get? gasUsedField = some (.nat gas) := by
      have hg := h.gasUsed
      rw [hc] at hg
      simpa [setFee, Value.get?_set, feeField, feeNumField, gasUsedField] using hg
    rw [hc] at hf
    have hs := h.setCharge (onFee fee) (onGas gas)
    simpa [Fee.adjust, Ledger.adjust, hf, hg, hc, Value.text?, Value.nat?] using hs

/-- A fee write does to the document what it does to the ledger. -/
theorem Shows.apply (h : Shows d l doc) {write : FeeWrite} (hw : write.denomination = d) :
    Shows d (l.after write) (write.apply doc) := by
  cases write with
  | absolute fee gasUsed refunds d' =>
    change d' = d at hw
    subst hw
    have hc := h.setCharge (fee - (Fee.total (Dict.values (l.refunds.filter fun e => !refunds.has e.1))).1)
      (Saturating.sub gasUsed (Fee.total (Dict.values (l.refunds.filter fun e => !refunds.has e.1))).2)
    have hs := hc.setRefunds (h.sorted.extend refunds)
    unfold FeeWrite.apply
    rw [h.storedRefunds]
    cases he : List.isEmpty (l.refunds.extend refunds) with
    | true =>
      have hnil := List.isEmpty_iff.1 (Dict.isEmpty_of_extend he)
      have hkept := List.isEmpty_iff.1 he
      simp only [hnil] at hc hkept
      simpa [after, hnil, hkept] using hc
    | false => simpa [after, he, Fee.setRefunds] using hs
  | relativeAdjust id refund d' =>
    change d' = d at hw
    subst hw
    unfold FeeWrite.apply
    rw [h.storedRefunds]
    cases hid : l.refunds.has id with
    | true => simpa [after, hid] using h
    | false =>
      have hs := (h.setRefunds (h.sorted.insert id refund)).adjust (· - refund.fee)
        (Saturating.sub · refund.gasRefunded)
      simpa [after, hid, Fee.setRefunds, Dict.isEmpty_insert] using hs
  | revertRefund id d' =>
    change d' = d at hw
    subst hw
    unfold FeeWrite.apply
    rw [h.storedRefunds]
    cases hf : l.refunds.find? id with
    | none => simpa [after, hf] using h
    | some refund =>
      have hs := (h.setRefunds (h.sorted.erase id)).adjust (· + refund.fee)
        (Saturating.add · refund.gasRefunded)
      simpa [after, hf] using hs

/-- No other field changes with the fee. -/
theorem get?_adjust_of_not_mem {key : String} (hk : key ∉ Fee.fields) (onFee : Amount → Amount)
    (onGas : UInt64 → UInt64) : (Fee.adjust onFee onGas d doc).get? key = doc.get? key := by
  simp only [Fee.fields, List.mem_cons, List.not_mem_nil, or_false, not_or] at hk
  obtain ⟨hfee, hnum, hgas, -⟩ := hk
  unfold Fee.adjust
  dsimp only
  split <;> split <;> simp [setFee, Value.get?_set, Ne.symm hfee, Ne.symm hnum, Ne.symm hgas]

theorem get?_setRefunds_of_not_mem {key : String} (hk : key ∉ Fee.fields) (refunds : Dict Refund) :
    (Fee.setRefunds refunds doc).get? key = doc.get? key := by
  simp only [Fee.fields, List.mem_cons, List.not_mem_nil, or_false, not_or] at hk
  unfold Fee.setRefunds
  split
  · rw [Value.get?_eraseFields, if_neg (Ne.symm hk.2.2.2)]
  · rw [Value.get?_set, if_neg (Ne.symm hk.2.2.2)]

end Ledger

/-- Fee writes leave all other fields as they are. -/
theorem FeeWrite.get?_apply_of_not_mem (write : FeeWrite) (doc : Value) {key : String}
    (hk : key ∉ Fee.fields) : (write.apply doc).get? key = doc.get? key := by
  have hk' := hk
  simp only [Fee.fields, List.mem_cons, List.not_mem_nil, or_false, not_or] at hk'
  obtain ⟨hfee, hnum, hgas, hrefunds⟩ := hk'
  cases write with
  | absolute fee gasUsed refunds d =>
    unfold FeeWrite.apply
    dsimp only
    split <;> simp [Fee.setFee, Value.get?_set, Ne.symm hfee, Ne.symm hnum, Ne.symm hgas,
      Ne.symm hrefunds]
  | relativeAdjust id refund d =>
    unfold FeeWrite.apply
    dsimp only
    split
    · rfl
    · rw [Ledger.get?_adjust_of_not_mem hk, Value.get?_set, if_neg (Ne.symm hrefunds)]
  | revertRefund id d =>
    unfold FeeWrite.apply
    dsimp only
    split
    · rw [Ledger.get?_adjust_of_not_mem hk, Ledger.get?_setRefunds_of_not_mem hk]
    · rfl

end ChainIndex
