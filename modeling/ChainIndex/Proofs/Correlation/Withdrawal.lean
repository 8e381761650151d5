import ChainIndex.Proofs.Correlation.Effect

/-!
Withdrawing refunds. Withdrawals and credits move fee and gas by what they move the sum of refunds,
within the bounds of amounts; while fee and gas are balanced the bounds do not show where withdrawals
and credits return to the refunds they started from.
-/
namespace ChainIndex

variable {d : Denomination} {l : Ledger} {doc : Value} {refunds : Dict Refund}

namespace Ledger

open Fee

variable {paid : Amount × UInt64}

def withdrawn (d : Denomination) (ids : List String) (l : Ledger) : Ledger :=
  ids.foldl (fun l id => l.after (.revertRefund id d)) l

theorem find?_after_revertRefund (l : Ledger) (id other : String) :
    (l.after (.revertRefund id d)).refunds.find? other =
      if id = other then none else l.refunds.find? other := by
  cases hf : l.refunds.find? id with
  | none =>
    simp only [after, hf]
    split
    · next he => exact he ▸ hf
    · rfl
  | some refund =>
    simp only [after, hf, adjust]
    exact Dict.find?_erase l.refunds id other

/-- What is taken back is gone, and all other refunds stay. -/
theorem find?_withdrawn (ids : List String) (l : Ledger) (id : String) :
    (l.withdrawn d ids).refunds.find? id = if id ∈ ids then none else l.refunds.find? id := by
  induction ids generalizing l with
  | nil => rfl
  | cons key rest ih =>
    refine (ih _).trans ?_
    rw [find?_after_revertRefund]
    by_cases hk : key = id
    · simp [hk]
    · simp [hk, Ne.symm hk]

theorem isSome_charge_after_revertRefund (l : Ledger) (id : String) :
    (l.after (.revertRefund id d)).charge.isSome = l.charge.isSome := by
  cases hf : l.refunds.find? id <;> simp [after, hf, adjust]

theorem isSome_charge_withdrawn (ids : List String) (l : Ledger) :
    (l.withdrawn d ids).charge.isSome = l.charge.isSome := by
  induction ids generalizing l with
  | nil => rfl
  | cons id rest ih => exact (ih _).trans (isSome_charge_after_revertRefund l id)

structure Raised (before after : Ledger) : Prop where
  feeOf_le : feeOf after.refunds ≤ feeOf before.refunds
  gasOf_le : gasOf after.refunds ≤ gasOf before.refunds
  charge : ∀ c ∈ before.charge, ∃ c' ∈ after.charge,
    c'.1.units = min (c.1.units + (feeOf before.refunds - feeOf after.refunds)) (Amount.bound - 1) ∧
      c'.2.toNat = min (c.2.toNat + (gasOf before.refunds - gasOf after.refunds)) (UInt64.size - 1)

structure Lowered (before after : Ledger) : Prop where
  feeOf_le : feeOf before.refunds ≤ feeOf after.refunds
  gasOf_le : gasOf before.refunds ≤ gasOf after.refunds
  charge : ∀ c ∈ before.charge, ∃ c' ∈ after.charge,
    c'.1.units = c.1.units - (feeOf after.refunds - feeOf before.refunds) ∧
      c'.2.toNat = c.2.toNat - (gasOf after.refunds - gasOf before.refunds)

theorem Raised.refl (l : Ledger) : Raised l l := by
  refine ⟨Nat.le_refl _, Nat.le_refl _, fun c hc => ⟨c, hc, ?_, ?_⟩⟩
  · have := c.1.units_lt
    omega
  · have := c.2.toNat_lt
    have hsize : UInt64.size = 18446744073709551616 := rfl
    omega

theorem Raised.trans {l' l'' : Ledger} (h : Raised l l') (h' : Raised l' l'') : Raised l l'' := by
  obtain ⟨hfee, hgas, hcharge⟩ := h
  obtain ⟨hfee', hgas', hcharge'⟩ := h'
  refine ⟨Nat.le_trans hfee' hfee, Nat.le_trans hgas' hgas, fun c hc => ?_⟩
  obtain ⟨c', hc', hunits, hnat⟩ := hcharge c hc
  obtain ⟨c'', hc'', hunits', hnat'⟩ := hcharge' c' hc'
  exact ⟨c'', hc'', by omega, by omega⟩

theorem Lowered.refl (l : Ledger) : Lowered l l :=
  ⟨Nat.le_refl _, Nat.le_refl _, fun c hc => ⟨c, hc, by omega, by omega⟩⟩

theorem Lowered.trans {l' l'' : Ledger} (h : Lowered l l') (h' : Lowered l' l'') : Lowered l l'' := by
  obtain ⟨hfee, hgas, hcharge⟩ := h
  obtain ⟨hfee', hgas', hcharge'⟩ := h'
  refine ⟨Nat.le_trans hfee hfee', Nat.le_trans hgas hgas', fun c hc => ?_⟩
  obtain ⟨c', hc', hunits, hnat⟩ := hcharge c hc
  obtain ⟨c'', hc'', hunits', hnat'⟩ := hcharge' c' hc'
  exact ⟨c'', hc'', by omega, by omega⟩

/-- A refund that is taken back is paid again. -/
theorem raised_revertRefund (hl : l.refunds.Sorted) (id : String) :
    Raised l (l.after (.revertRefund id d)) := by
  cases hf : l.refunds.find? id with
  | none =>
    have hsame : l.after (.revertRefund id d) = l := by simp [after, hf]
    rw [hsame]
    exact Raised.refl l
  | some refund =>
    have hfees := feeOf_erase hl hf
    have hgases := gasOf_erase hl hf
    have hsize : UInt64.size = 18446744073709551616 := rfl
    have hstep : (l.after (.revertRefund id d)).refunds = l.refunds.erase id := by simp [after, hf, adjust]
    rw [← hstep] at hfees hgases
    refine ⟨by omega, by omega, fun c hc => ?_⟩
    refine ⟨(c.1 + refund.fee, Saturating.add c.2 refund.gasRefunded), ?_, ?_, ?_⟩
    · rw [Option.mem_def] at hc ⊢
      simp [after, hf, adjust, hc]
    · rw [Amount.add_units]
      omega
    · rw [Saturating.toNat_add]
      omega

/-- A refund that is given lowers what was paid. -/
theorem lowered_relativeAdjust (l : Ledger) (id : String) (refund : Refund) :
    Lowered l (l.after (.relativeAdjust id refund d)) := by
  cases hid : l.refunds.has id with
  | true =>
    have hsame : l.after (.relativeAdjust id refund d) = l := by simp [after, hid]
    rw [hsame]
    exact Lowered.refl l
  | false =>
    have hfree : l.refunds.find? id = none := by simpa [Dict.has] using hid
    have hfees := feeOf_insert hfree refund
    have hgases := gasOf_insert hfree refund
    have hstep : (l.after (.relativeAdjust id refund d)).refunds = l.refunds.insert id refund := by
      simp [after, hid, adjust]
    rw [← hstep] at hfees hgases
    refine ⟨by omega, by omega, fun c hc => ?_⟩
    refine ⟨(c.1 - refund.fee, Saturating.sub c.2 refund.gasRefunded), ?_, ?_, ?_⟩
    · rw [Option.mem_def] at hc ⊢
      simp [after, hid, adjust, hc]
    · rw [Amount.sub_units]
      omega
    · rw [Saturating.toNat_sub]
      omega

theorem sorted_after_revertRefund (hl : l.refunds.Sorted) (id : String) :
    (l.after (.revertRefund id d)).refunds.Sorted := by
  cases hf : l.refunds.find? id with
  | none => simpa [after, hf] using hl
  | some refund => simpa [after, hf, adjust] using hl.erase id

theorem sorted_withdrawn (hl : l.refunds.Sorted) (ids : List String) :
    (l.withdrawn d ids).refunds.Sorted := by
  induction ids generalizing l with
  | nil => exact hl
  | cons id rest ih => exact ih (sorted_after_revertRefund hl id)

theorem sorted_credited (hl : l.refunds.Sorted) (refunds : Dict Refund) :
    (l.credited d refunds).refunds.Sorted := by
  induction refunds generalizing l with
  | nil => exact hl
  | cons e rest ih =>
    refine ih ?_
    unfold after
    dsimp only
    split
    · exact hl
    · exact hl.insert e.1 e.2

theorem raised_withdrawn (hl : l.refunds.Sorted) (ids : List String) : Raised l (l.withdrawn d ids) := by
  induction ids generalizing l with
  | nil => exact Raised.refl l
  | cons id rest ih => exact (raised_revertRefund hl id).trans (ih (sorted_after_revertRefund hl id))

theorem lowered_credited (l : Ledger) (refunds : Dict Refund) : Lowered l (l.credited d refunds) := by
  induction refunds generalizing l with
  | nil => exact Lowered.refl l
  | cons e rest ih => exact (lowered_relativeAdjust l e.1 e.2).trans (ih _)

/-- A balanced charge is the same again once the same refunds are back. -/
theorem Balanced.charge_recredited (h : l.Balanced paid) (hl : l.refunds.Sorted) {ids : List String}
    (same : ((l.withdrawn d ids).credited d refunds).refunds = l.refunds) :
    ((l.withdrawn d ids).credited d refunds).charge = l.charge := by
  have hcharged := (isSome_charge_credited d refunds (l.withdrawn d ids)).trans (isSome_charge_withdrawn ids l)
  refine (charge_ext hcharged.symm fun c hc => ?_).symm
  obtain ⟨hfee, hgas⟩ := h c hc
  obtain ⟨hle, hleg, hraise⟩ := raised_withdrawn (d := d) hl ids
  obtain ⟨c', hc', hfee', hgas'⟩ := hraise c hc
  obtain ⟨-, -, hlower⟩ := lowered_credited (d := d) (l.withdrawn d ids) refunds
  obtain ⟨c'', hc'', hfee'', hgas''⟩ := hlower c' hc'
  rw [same] at hfee'' hgas''
  have hp := paid.1.units_lt
  have hg := paid.2.toNat_lt
  have hsize : UInt64.size = 18446744073709551616 := rfl
  exact ⟨c'', hc'', by omega, by omega⟩

/-- Refunds withdrawn and credited again are as before exactly if none of them was another one. -/
theorem recredited_refunds_iff (hl : l.refunds.Sorted) {ids : List String}
    (hown : ∀ id refund, refunds.find? id = some refund → id ∈ ids) :
    (((l.credited d refunds).withdrawn d ids).credited d refunds).refunds = (l.credited d refunds).refunds ↔
      ∀ id ∈ ids, ∀ refund, l.refunds.find? id = some refund → refunds.find? id = some refund := by
  have hfind (id : String) :
      (((l.credited d refunds).withdrawn d ids).credited d refunds).refunds.find? id =
        if id ∈ ids then refunds.find? id else (l.credited d refunds).refunds.find? id := by
    rw [find?_credited, find?_withdrawn]
    split
    · rfl
    · next hout =>
      cases hr : refunds.find? id with
      | none => simp
      | some refund => exact absurd (hown id refund hr) hout
  constructor
  · intro same id hid refund hr
    have hfound := hfind id
    rw [same, find?_credited, if_pos hid, hr, Option.some_or] at hfound
    exact hfound.symm
  · intro hold
    have hsorted := sorted_credited (d := d) hl refunds
    refine (sorted_credited (sorted_withdrawn hsorted ids) refunds).ext hsorted fun id => ?_
    rw [hfind]
    split
    · next hid =>
      rw [find?_credited]
      cases hr : l.refunds.find? id with
      | none => rfl
      | some refund => simpa using hold id hid refund hr
    · rfl

/-- A balanced ledger is the same again once the same refunds are back. -/
theorem Balanced.recredited_eq (h : l.Balanced paid) (hl : l.refunds.Sorted) {ids : List String}
    (same : (((l.credited d refunds).withdrawn d ids).credited d refunds).refunds =
      (l.credited d refunds).refunds) :
    ((l.credited d refunds).withdrawn d ids).credited d refunds = l.credited d refunds :=
  Ledger.ext ((h.credited d refunds).charge_recredited (sorted_credited hl refunds) same) same

theorem isSome_charge_withdrawn_credited (ids : List String) (refunds : Dict Refund) (l : Ledger) :
    ((l.credited d refunds).withdrawn d ids).charge.isSome = l.charge.isSome :=
  (isSome_charge_withdrawn ids (l.credited d refunds)).trans (isSome_charge_credited d refunds l)

/-- A balanced charge stands once refunds that it covers came and went. -/
theorem Balanced.charge_withdrawn_credited (h : l.Balanced paid)
    (hc : (l.credited d refunds).Covered paid) (hs : (l.credited d refunds).refunds.Sorted)
    {ids : List String} (same : ((l.credited d refunds).withdrawn d ids).refunds = l.refunds) :
    ((l.credited d refunds).withdrawn d ids).charge = l.charge := by
  have hcharged := isSome_charge_withdrawn_credited (d := d) ids refunds l
  refine (charge_ext hcharged.symm fun c hcharge => ?_).symm
  obtain ⟨hfee, hgas⟩ := h c hcharge
  obtain ⟨hcovered, hcoveredg⟩ := hc
  obtain ⟨hle, hleg, hlower⟩ := lowered_credited (d := d) l refunds
  obtain ⟨c', hc', hfee', hgas'⟩ := hlower c hcharge
  obtain ⟨-, -, hraise⟩ := raised_withdrawn (d := d) hs ids
  obtain ⟨c'', hc'', hfee'', hgas''⟩ := hraise c' hc'
  rw [same] at hfee'' hgas''
  have hp := paid.1.units_lt
  have hg := paid.2.toNat_lt
  have hsize : UInt64.size = 18446744073709551616 := rfl
  exact ⟨c'', hc'', by omega, by omega⟩

/-- Refunds that are new, come and go again leave the ledger as it was. -/
theorem withdrawn_credited (hl : l.refunds.Sorted) {ids : List String}
    (hnew : ∀ id ∈ ids, l.refunds.find? id = none)
    (hown : ∀ id refund, refunds.find? id = some refund → id ∈ ids)
    (hc : l.charge = none ∨ ∃ paid, l.Balanced paid ∧ (l.credited d refunds).Covered paid) :
    (l.credited d refunds).withdrawn d ids = l := by
  have hsorted := sorted_credited (d := d) hl refunds
  have hrefunds : ((l.credited d refunds).withdrawn d ids).refunds = l.refunds := by
    refine (sorted_withdrawn hsorted ids).ext hl fun id => ?_
    rw [find?_withdrawn, find?_credited]
    split
    · next hid => exact (hnew id hid).symm
    · next hout =>
      cases hr : refunds.find? id with
      | none => rw [Option.or_none]
      | some refund => exact absurd (hown id refund hr) hout
  have hcharge : ((l.credited d refunds).withdrawn d ids).charge = l.charge := by
    rcases hc with hnone | ⟨paid, hb, hcovered⟩
    · have hcharged := isSome_charge_withdrawn_credited (d := d) ids refunds l
      rw [hnone] at hcharged ⊢
      simpa using hcharged
    · exact hb.charge_withdrawn_credited hcovered hsorted hrefunds
  exact Ledger.ext hcharge hrefunds

end Ledger

namespace Rollback

open Ledger

theorem shows_withdrawn (ids : List String) (h : l.Shows d doc) :
    (l.withdrawn d ids).Shows d (Mutation.applyAll (ids.map fun id => .fee (.revertRefund id d)) doc) := by
  induction ids generalizing l doc with
  | nil => exact h
  | cons id rest ih => exact ih (h.apply rfl)

theorem get?_withdrawn (d : Denomination) (ids : List String) (doc : Value) {key : String}
    (hfee : key ∉ Fee.fields) :
    (Mutation.applyAll (ids.map fun id => .fee (.revertRefund id d)) doc).get? key = doc.get? key := by
  induction ids generalizing doc with
  | nil => rfl
  | cons id rest ih => exact (ih _).trans (FeeWrite.get?_apply_of_not_mem (.revertRefund id d) doc hfee)

/-- Unwinding takes the refunds back, and the mark unless other results remain. -/
theorem shows_unwindMutations (ids : List String) (others : Bool) (h : l.Shows d doc) :
    (l.withdrawn d ids).Shows d (Mutation.applyAll (unwindMutations d ids others) doc) := by
  have hshows := shows_withdrawn ids h
  unfold unwindMutations
  rw [Mutation.applyAll_append]
  cases others with
  | true => exact hshows
  | false =>
    refine hshows.of_get? (hshows.record.eraseKey hasScResults) fun key hk => ?_
    refine (Value.get?_eraseKey _ hasScResults key).trans (if_neg ?_)
    rintro rfl
    exact absurd hk (by decide)

/-- Besides the fields of the fee, unwinding touches only the mark of results, and that only when no other result
remains. -/
theorem get?_unwindMutations (d : Denomination) (ids : List String) (others : Bool) (doc : Value)
    {key : String} (hfee : key ∉ Fee.fields) :
    (Mutation.applyAll (unwindMutations d ids others) doc).get? key =
      if others = false ∧ hasScResults = key then none else doc.get? key := by
  unfold unwindMutations
  rw [Mutation.applyAll_append]
  cases others with
  | true => simpa using get?_withdrawn d ids doc hfee
  | false =>
    refine (Value.get?_eraseKey _ hasScResults key).trans ?_
    rw [get?_withdrawn d ids doc hfee]
    simp

end Rollback
end ChainIndex
