import ChainIndex.Proofs.Fee.Balance
import ChainIndex.Write.Mutation
import Mathlib.Algebra.Order.BigOperators.Group.Finset
import Mathlib.Data.Finset.Sort
import Mathlib.Data.String.Basic

/-!
The fee fields of a document after any history of fee writes. They show which refunds are live and
whether the fee was ever written; order, repetitions and what was taken back leave no trace.
-/
namespace ChainIndex

variable {paid : Amount × UInt64} {ρ : String → Refund} {d : Denomination}

namespace FeeWrite

def ids : FeeWrite → Finset String
  | absolute _ _ refunds _ => (Dict.keys refunds).toFinset
  | relativeAdjust id _ _ => {id}
  | revertRefund id _ => {id}

def live (before : Finset String) : FeeWrite → Finset String
  | absolute _ _ refunds _ => before ∪ (Dict.keys refunds).toFinset
  | relativeAdjust id _ _ => insert id before
  | revertRefund id _ => before.erase id

def isAbsolute : FeeWrite → Bool
  | absolute .. => true
  | relativeAdjust .. => false
  | revertRefund .. => false

/-- A write about one transaction: every id stands for its refund under `ρ`, and an absolute write
has what was paid less the refunds that it brings. -/
inductive Agrees (paid : Amount × UInt64) (ρ : String → Refund) (d : Denomination) : FeeWrite → Prop
  | absolute {fee : Amount} {gas : UInt64} {refunds : Dict Refund} (sorted : refunds.Sorted)
      (known : ∀ e ∈ refunds, e.2 = ρ e.1) (feeLeft : fee.units = paid.1.units - Fee.feeOf refunds)
      (gasLeft : gas.toNat = paid.2.toNat - Fee.gasOf refunds) : Agrees paid ρ d (.absolute fee gas refunds d)
  | relativeAdjust (id : String) : Agrees paid ρ d (.relativeAdjust id (ρ id) d)
  | revertRefund (id : String) : Agrees paid ρ d (.revertRefund id d)

theorem Agrees.denomination {write : FeeWrite} (h : write.Agrees paid ρ d) : write.denomination = d := by
  cases h <;> rfl

end FeeWrite

namespace Fee

def ids (writes : List FeeWrite) : Finset String := writes.foldr (fun w known => w.ids ∪ known) ∅

def live (writes : List FeeWrite) : Finset String := writes.foldl FeeWrite.live ∅

def refundsOf (ρ : String → Refund) (ids : Finset String) : Dict Refund := ids.sort.map fun id => (id, ρ id)

def feeLeft (paid : Amount × UInt64) (ρ : String → Refund) (ids : Finset String) : Amount :=
  ⟨paid.1.units - ∑ id ∈ ids, (ρ id).fee.units, Nat.lt_of_le_of_lt (Nat.sub_le _ _) paid.1.units_lt⟩

def gasLeft (paid : Amount × UInt64) (ρ : String → Refund) (ids : Finset String) : UInt64 :=
  (paid.2.toNat - ∑ id ∈ ids, (ρ id).gasRefunded.toNat).toUInt64

/-- The document of nothing but the refunds and, once it is charged, the fee. -/
def document (paid : Amount × UInt64) (ρ : String → Refund) (d : Denomination) (ids : Finset String)
    (charged : Bool) : Value :=
  .record <|
    (if charged then
      [(feeField, .str (feeLeft paid ρ ids).text), (feeNumField, .double (d.toDouble (feeLeft paid ρ ids))),
        (gasUsedField, .nat (gasLeft paid ρ ids))]
    else []) ++
    if ids = ∅ then [] else [(refundsField, refundsValue (refundsOf ρ ids))]

theorem keys_refundsOf (ids : Finset String) : Dict.keys (refundsOf ρ ids) = ids.sort := by
  simp [refundsOf, Dict.keys, Function.comp_def]

theorem sorted_refundsOf (ids : Finset String) : (refundsOf ρ ids).Sorted :=
  List.pairwise_map.2 ids.sortedLT_sort.pairwise

theorem find?_refundsOf (ids : Finset String) (id : String) :
    (refundsOf ρ ids).find? id = if id ∈ ids then some (ρ id) else none := by
  split
  · next h =>
    refine (sorted_refundsOf ids).find?_of_mem (List.mem_map.2 ⟨id, ?_, rfl⟩)
    simpa using h
  · next h =>
    rw [Dict.find?_eq_none_iff, keys_refundsOf]
    simpa using h

theorem isEmpty_refundsOf (ids : Finset String) : List.isEmpty (refundsOf ρ ids) = true ↔ ids = ∅ := by
  rw [List.isEmpty_iff_length_eq_zero, refundsOf, List.length_map, Finset.length_sort, Finset.card_eq_zero]

/-- Refunds in order that agree with `ρ` are told apart by their ids. -/
theorem eq_refundsOf {refunds : Dict Refund} (hs : refunds.Sorted) {ids : Finset String}
    (h : ∀ id, refunds.find? id = if id ∈ ids then some (ρ id) else none) : refunds = refundsOf ρ ids :=
  hs.ext (sorted_refundsOf ids) fun id => by rw [h, find?_refundsOf]

theorem sumOf_refundsOf (f : Refund → Nat) (ids : Finset String) :
    Dict.sumOf f (refundsOf ρ ids) = ∑ id ∈ ids, f (ρ id) := by
  have hlist (keys : List String) :
      Dict.sumOf f (keys.map fun id => (id, ρ id)) = (keys.map (f ∘ ρ)).sum := by
    induction keys with
    | nil => rfl
    | cons id rest ih => simp [Dict.sumOf, ih]
  rw [refundsOf, hlist, ← List.sum_toFinset _ (ids.sort_nodup _), Finset.sort_toFinset]
  rfl

theorem feeOf_refundsOf (ids : Finset String) :
    feeOf (refundsOf ρ ids) = ∑ id ∈ ids, (ρ id).fee.units := sumOf_refundsOf _ ids

theorem gasOf_refundsOf (ids : Finset String) :
    gasOf (refundsOf ρ ids) = ∑ id ∈ ids, (ρ id).gasRefunded.toNat := sumOf_refundsOf _ ids

theorem ids_subset {writes : List FeeWrite} {write : FeeWrite} (h : write ∈ writes) :
    write.ids ⊆ ids writes := by
  induction writes with
  | nil => cases h
  | cons first rest ih =>
    rcases List.mem_cons.1 h with rfl | h
    · exact Finset.subset_union_left
    · exact (ih h).trans Finset.subset_union_right

end Fee

namespace Ledger

open Fee

structure Holds (paid : Amount × UInt64) (ρ : String → Refund) (known live : Finset String)
    (charged : Bool) (l : Ledger) : Prop where
  known : live ⊆ known
  refunds : l.refunds = refundsOf ρ live
  charged : l.charge.isSome = charged
  balanced : l.Balanced paid

variable {known live : Finset String} {charged : Bool} {l : Ledger}

theorem holds_empty : Holds paid ρ known ∅ false {} where
  known := Finset.empty_subset _
  refunds := by simp [refundsOf]
  charged := rfl
  balanced := fun _ h => by cases h

theorem Holds.sorted (h : l.Holds paid ρ known live charged) : l.refunds.Sorted :=
  h.refunds ▸ sorted_refundsOf live

theorem Holds.find? (h : l.Holds paid ρ known live charged) (id : String) :
    l.refunds.find? id = if id ∈ live then some (ρ id) else none := by
  rw [h.refunds, find?_refundsOf]

theorem Holds.covered (h : l.Holds paid ρ known live charged)
    (hfee : ∑ id ∈ known, (ρ id).fee.units ≤ paid.1.units)
    (hgas : ∑ id ∈ known, (ρ id).gasRefunded.toNat ≤ paid.2.toNat) : l.Covered paid := by
  rw [Covered, h.refunds, feeOf_refundsOf, gasOf_refundsOf]
  exact ⟨(Finset.sum_le_sum_of_subset h.known).trans hfee, (Finset.sum_le_sum_of_subset h.known).trans hgas⟩

theorem isSome_charge_adjust (l : Ledger) (onFee : Amount → Amount) (onGas : UInt64 → UInt64) :
    (l.adjust onFee onGas).charge.isSome = l.charge.isSome := by
  simp [adjust]

/-- A charge enters its refunds among those that are live. -/
theorem Holds.absolute (h : l.Holds paid ρ known live charged) {fee : Amount} {gas : UInt64}
    {refunds : Dict Refund} (hs : refunds.Sorted) (hr : ∀ e ∈ refunds, e.2 = ρ e.1)
    (hfee : fee.units = paid.1.units - feeOf refunds) (hgas : gas.toNat = paid.2.toNat - gasOf refunds)
    (hk : refunds.keys.toFinset ⊆ known) :
    (l.after (.absolute fee gas refunds d)).Holds paid ρ known (live ∪ refunds.keys.toFinset) true := by
  have hfind (id : String) : (l.refunds.extend refunds).find? id =
      if id ∈ live ∪ refunds.keys.toFinset then some (ρ id) else none := by
    rw [Dict.find?_extend, Dict.find?_reverse hs, h.find?]
    simp only [Finset.mem_union, List.mem_toFinset]
    cases hf : refunds.find? id with
    | none =>
      have hout : id ∉ refunds.keys := Dict.find?_eq_none_iff.1 hf
      simp [hout]
    | some r =>
      have hm := Dict.mem_of_find? hf
      have hin : id ∈ refunds.keys := List.mem_map.2 ⟨_, hm, rfl⟩
      simp [hin, ← hr _ hm]
  exact {
    known := Finset.union_subset h.known hk
    refunds := eq_refundsOf (h.sorted.extend refunds) hfind
    charged := rfl
    balanced := balanced_absolute h.sorted hs hfee hgas d }

/-- A refund that comes alone is live afterwards. -/
theorem Holds.relativeAdjust (h : l.Holds paid ρ known live charged) {id : String} (hk : id ∈ known) :
    (l.after (.relativeAdjust id (ρ id) d)).Holds paid ρ known (insert id live) charged := by
  have hb := h.balanced.relativeAdjust id (ρ id) d
  by_cases hid : id ∈ live
  · have hsame : l.after (.relativeAdjust id (ρ id) d) = l := by simp [after, Dict.has, h.find?, hid]
    rw [hsame, Finset.insert_eq_of_mem hid]
    exact h
  · have hnew : l.refunds.has id = false := by simp [Dict.has, h.find?, hid]
    have hfind (other : String) : (l.refunds.insert id (ρ id)).find? other =
        if other ∈ insert id live then some (ρ other) else none := by
      rw [Dict.find?_insert, h.find?]
      simp only [Finset.mem_insert]
      by_cases he : id = other
      · simp [he]
      · simp [he, Ne.symm he]
    refine ⟨Finset.insert_subset hk h.known, ?_, ?_, hb⟩
    · simpa [after, hnew, adjust] using eq_refundsOf (h.sorted.insert id _) hfind
    · simpa [after, hnew, isSome_charge_adjust] using h.charged

/-- A refund that is taken back is no longer live. As all refunds are covered, nothing is lost at the bounds. -/
theorem Holds.revertRefund (h : l.Holds paid ρ known live charged) (hc : l.Covered paid) (id : String) :
    (l.after (.revertRefund id d)).Holds paid ρ known (live.erase id) charged := by
  have hb := h.balanced.revertRefund h.sorted hc id d
  by_cases hid : id ∈ live
  · have hold : l.refunds.find? id = some (ρ id) := by simp [h.find?, hid]
    have hfind (other : String) : (l.refunds.erase id).find? other =
        if other ∈ live.erase id then some (ρ other) else none := by
      rw [Dict.find?_erase, h.find?]
      simp only [Finset.mem_erase]
      by_cases he : id = other
      · simp [he]
      · simp [he, Ne.symm he]
    refine ⟨(Finset.erase_subset _ _).trans h.known, ?_, ?_, hb⟩
    · simpa [after, hold, adjust] using eq_refundsOf (h.sorted.erase id) hfind
    · simpa [after, hold, isSome_charge_adjust] using h.charged
  · have hsame : l.after (.revertRefund id d) = l := by simp [after, h.find?, hid]
    rw [hsame, Finset.erase_eq_of_notMem hid]
    exact h

/-- One write about the transaction keeps to the live refunds. -/
theorem Holds.after (h : l.Holds paid ρ known live charged) (hc : l.Covered paid) {write : FeeWrite}
    (hw : write.Agrees paid ρ d) (hk : write.ids ⊆ known) :
    (l.after write).Holds paid ρ known (write.live live) (charged || write.isAbsolute) := by
  cases hw with
  | absolute sorted agree feeLeft gasLeft =>
    rw [FeeWrite.isAbsolute, Bool.or_true]
    exact h.absolute sorted agree feeLeft gasLeft hk
  | relativeAdjust id =>
    rw [FeeWrite.isAbsolute, Bool.or_false]
    exact h.relativeAdjust (Finset.singleton_subset_iff.1 hk)
  | revertRefund id =>
    rw [FeeWrite.isAbsolute, Bool.or_false]
    exact h.revertRefund hc id

/-- Fee and gas are determined by what was paid and by the live refunds. -/
theorem Holds.charge_eq (h : l.Holds paid ρ known live charged) :
    l.charge = if charged then some (feeLeft paid ρ live, gasLeft paid ρ live) else none := by
  rw [← h.charged]
  cases hc : l.charge with
  | none => simp
  | some c =>
    obtain ⟨hfee, hgas⟩ := h.balanced c hc
    rw [h.refunds, feeOf_refundsOf] at hfee
    rw [h.refunds, gasOf_refundsOf] at hgas
    have hf : c.1 = feeLeft paid ρ live := Amount.ext hfee
    have hg : c.2 = gasLeft paid ρ live := by
      rw [gasLeft, ← hgas]
      exact UInt64.ofNat_toNat.symm
    simp [← hf, ← hg]

/-- Documents that show the same ledger and nothing else are the same. -/
theorem Holds.eq_document (h : l.Holds paid ρ known live charged) {doc : Value} (hs : l.Shows d doc)
    (bare : ∀ key ∉ Fee.fields, doc.get? key = none) : doc = document paid ρ d live charged := by
  refine hs.record.ext (Value.isRecord_record _) fun key => ?_
  rw [document, Value.get?_record, List.reverse_append, Dict.find?_append]
  have hrefunds : doc.get? refundsField =
      if live = ∅ then none else some (refundsValue (refundsOf ρ live)) := by
    rw [hs.refunds, h.refunds]
    simp only [isEmpty_refundsOf]
  by_cases hkey : key ∈ Fee.fields
  · simp only [Fee.fields, List.mem_cons, List.not_mem_nil, or_false] at hkey
    rcases hkey with rfl | rfl | rfl | rfl
    · rw [hs.fee, h.charge_eq]
      cases charged <;> by_cases hl : live = ∅ <;>
        simp [hl, Dict.find?, feeField, feeNumField, gasUsedField, refundsField]
    · rw [hs.feeNum, h.charge_eq]
      cases charged <;> by_cases hl : live = ∅ <;>
        simp [hl, Dict.find?, feeNumField, gasUsedField, refundsField]
    · rw [hs.gasUsed, h.charge_eq]
      cases charged <;> by_cases hl : live = ∅ <;> simp [hl, Dict.find?, gasUsedField, refundsField]
    · rw [hrefunds]
      cases charged <;> by_cases hl : live = ∅ <;>
        simp [hl, Dict.find?, feeField, feeNumField, gasUsedField, refundsField]
  · rw [bare key hkey]
    simp only [Fee.fields, List.mem_cons, List.not_mem_nil, or_false, not_or] at hkey
    obtain ⟨hfee, hnum, hgas, hrefunds⟩ := hkey
    cases charged <;> by_cases hl : live = ∅ <;>
      simp [hl, Dict.find?, Ne.symm hfee, Ne.symm hnum, Ne.symm hgas, Ne.symm hrefunds]

/-- A history of writes about one transaction keeps to the live refunds. -/
theorem Holds.applyAll {writes : List FeeWrite} (agree : ∀ w ∈ writes, w.Agrees paid ρ d)
    (hk : ∀ w ∈ writes, w.ids ⊆ known) (hfee : ∑ id ∈ known, (ρ id).fee.units ≤ paid.1.units)
    (hgas : ∑ id ∈ known, (ρ id).gasRefunded.toNat ≤ paid.2.toNat) {doc : Value}
    (h : l.Holds paid ρ known live charged) (hs : l.Shows d doc) :
    ∃ l' : Ledger, l'.Shows d (Mutation.applyAll (writes.map .fee) doc) ∧
      l'.Holds paid ρ known (writes.foldl FeeWrite.live live)
        (charged || writes.any FeeWrite.isAbsolute) := by
  induction writes generalizing l live charged doc with
  | nil => exact ⟨l, hs, by simpa using h⟩
  | cons w rest ih =>
    have hw := agree w List.mem_cons_self
    have step := h.after (h.covered hfee hgas) hw (hk w List.mem_cons_self)
    obtain ⟨l', hs', h'⟩ := ih (fun w' hm => agree w' (List.mem_cons_of_mem _ hm))
      (fun w' hm => hk w' (List.mem_cons_of_mem _ hm)) step (hs.apply hw.denomination)
    exact ⟨l', hs', by simpa [Bool.or_assoc] using h'⟩

end Ledger

theorem get?_applyAll_fee (writes : List FeeWrite) (doc : Value) {key : String} (hk : key ∉ Fee.fields) :
    (Mutation.applyAll (writes.map .fee) doc).get? key = doc.get? key := by
  induction writes generalizing doc with
  | nil => rfl
  | cons w rest ih => exact (ih _).trans (w.get?_apply_of_not_mem doc hk)

/-- After any part of a history the document is that of the live refunds, whatever came and went. -/
theorem feeHistory_eq_document {writes : List FeeWrite} (agree : ∀ w ∈ writes, w.Agrees paid ρ d)
    (feeCovered : ∑ id ∈ Fee.ids writes, (ρ id).fee.units ≤ paid.1.units)
    (gasCovered : ∑ id ∈ Fee.ids writes, (ρ id).gasRefunded.toNat ≤ paid.2.toNat)
    {past : List FeeWrite} (hp : past <+: writes) :
    Mutation.applyAll (past.map .fee) .empty =
      Fee.document paid ρ d (Fee.live past) (past.any FeeWrite.isAbsolute) := by
  have hagree : ∀ w ∈ past, w.Agrees paid ρ d := fun w hw => agree w (hp.subset hw)
  have hknown : ∀ w ∈ past, w.ids ⊆ Fee.ids writes := fun w hw => Fee.ids_subset (hp.subset hw)
  obtain ⟨l, hs, hl⟩ := Ledger.holds_empty.applyAll hagree hknown feeCovered gasCovered
    (Ledger.shows_empty (d := d))
  have hbare : ∀ key ∉ Fee.fields, (Mutation.applyAll (past.map .fee) .empty).get? key = none :=
    fun key hkey => get?_applyAll_fee past .empty hkey
  simpa [Fee.live] using hl.eq_document hs hbare

/-- A refund comes early, is withdrawn after the charge and comes again with a repeated charge. -/
theorem feeHistory_eq_document_redelivered :
    let paid : Amount × UInt64 := (⟨100, by decide⟩, 50)
    let r : Refund := ⟨⟨30, by decide⟩, 10⟩
    let d : Denomination := ⟨18⟩
    let charge : FeeWrite := .absolute ⟨70, by decide⟩ 40 [("b1", r)] d
    let writes : List FeeWrite := [.relativeAdjust "c1" r d, charge, .revertRefund "b1" d, charge,
      .revertRefund "c1" d, .relativeAdjust "c1" r d]
    (∀ w ∈ writes, w.Agrees paid (fun _ => r) d) ∧
      ∑ _id ∈ Fee.ids writes, r.fee.units ≤ paid.1.units ∧
      ∑ _id ∈ Fee.ids writes, r.gasRefunded.toNat ≤ paid.2.toNat ∧
      Mutation.applyAll (writes.map .fee) .empty = Fee.document paid (fun _ => r) d {"b1", "c1"} true := by
  intro paid r d charge writes
  have agree : ∀ w ∈ writes, w.Agrees paid (fun _ => r) d := by
    have hc : charge.Agrees paid (fun _ => r) d :=
      .absolute (by simp [Dict.Sorted]) (by simp) (by decide) (by decide)
    simp only [writes, List.forall_mem_cons]
    exact ⟨.relativeAdjust _, hc, .revertRefund _, hc, .revertRefund _, .relativeAdjust _, by simp⟩
  have hids : Fee.ids writes = {"b1", "c1"} := by decide
  have feeCovered : ∑ _id ∈ Fee.ids writes, r.fee.units ≤ paid.1.units := by
    rw [hids]
    decide
  have gasCovered : ∑ _id ∈ Fee.ids writes, r.gasRefunded.toNat ≤ paid.2.toNat := by
    rw [hids]
    decide
  have h := feeHistory_eq_document agree feeCovered gasCovered (List.prefix_refl writes)
  have hlive : Fee.live writes = {"b1", "c1"} := by decide
  rw [hlive] at h
  exact ⟨agree, feeCovered, gasCovered, h⟩

end ChainIndex
