import ChainIndex.Proofs.Fee.Ledger

/-!
What remains of a fee. As long as no refund is taken back, fee and gas are what was paid less all
refunds, or zero once those exceed it; while the refunds are covered, taking one back is exact.
-/
namespace ChainIndex

namespace Fee

def feeOf (refunds : Dict Refund) : Nat := Dict.sumOf (·.fee.units) refunds

def gasOf (refunds : Dict Refund) : Nat := Dict.sumOf (·.gasRefunded.toNat) refunds

theorem feeOf_extend {stored refunds : Dict Refund} (hs : stored.Sorted) (hr : refunds.Sorted) :
    feeOf (stored.extend refunds) = feeOf refunds + feeOf (stored.filter fun e => !refunds.has e.1) :=
  Dict.Sorted.sumOf_extend _ hs hr

theorem gasOf_extend {stored refunds : Dict Refund} (hs : stored.Sorted) (hr : refunds.Sorted) :
    gasOf (stored.extend refunds) = gasOf refunds + gasOf (stored.filter fun e => !refunds.has e.1) :=
  Dict.Sorted.sumOf_extend _ hs hr

theorem feeOf_insert {refunds : Dict Refund} {id : String} (h : refunds.find? id = none) (r : Refund) :
    feeOf (refunds.insert id r) = r.fee.units + feeOf refunds :=
  Dict.sumOf_insert _ h r

theorem gasOf_insert {refunds : Dict Refund} {id : String} (h : refunds.find? id = none) (r : Refund) :
    gasOf (refunds.insert id r) = r.gasRefunded.toNat + gasOf refunds :=
  Dict.sumOf_insert _ h r

theorem feeOf_erase {refunds : Dict Refund} (hs : refunds.Sorted) {id : String} {r : Refund}
    (h : refunds.find? id = some r) : feeOf (refunds.erase id) + r.fee.units = feeOf refunds :=
  Dict.Sorted.sumOf_erase (·.fee.units) hs h

theorem gasOf_erase {refunds : Dict Refund} (hs : refunds.Sorted) {id : String} {r : Refund}
    (h : refunds.find? id = some r) :
    gasOf (refunds.erase id) + r.gasRefunded.toNat = gasOf refunds :=
  Dict.Sorted.sumOf_erase (·.gasRefunded.toNat) hs h

theorem foldl_total (refunds : Dict Refund) (fee : Amount) (gas : UInt64) :
    let sums := (Dict.values refunds).foldl
      (fun (sum : Amount × UInt64) r => (sum.1 + r.fee, Saturating.add sum.2 r.gasRefunded)) (fee, gas)
    sums.1.units = min (fee.units + feeOf refunds) (Amount.bound - 1) ∧
      sums.2.toNat = min (gas.toNat + gasOf refunds) (UInt64.size - 1) := by
  have hsize : UInt64.size = 18446744073709551616 := rfl
  induction refunds generalizing fee gas with
  | nil =>
    have := fee.units_lt
    have := gas.toNat_lt
    simp only [Dict.values, List.map_nil, List.foldl_nil, feeOf, gasOf, Dict.sumOf]
    omega
  | cons entry rest ih =>
    obtain ⟨hfee, hgas⟩ := ih (fee + entry.2.fee) (Saturating.add gas entry.2.gasRefunded)
    simp only [Amount.add_units, Saturating.toNat_add] at hfee hgas
    simp only [Dict.values, List.map_cons, List.foldl_cons, feeOf, gasOf, Dict.sumOf]
    simp only [Dict.values, feeOf, gasOf] at hfee hgas
    rw [hfee, hgas]
    omega

theorem total_fee (refunds : Dict Refund) :
    (Fee.total (Dict.values refunds)).1.units = min (feeOf refunds) (Amount.bound - 1) := by
  have h := (foldl_total refunds .zero 0).1
  rw [show Amount.zero.units = 0 from rfl, Nat.zero_add] at h
  exact h

theorem total_gas (refunds : Dict Refund) :
    (Fee.total (Dict.values refunds)).2.toNat = min (gasOf refunds) (UInt64.size - 1) := by
  have h := (foldl_total refunds .zero 0).2
  rw [show (0 : UInt64).toNat = 0 from rfl, Nat.zero_add] at h
  exact h

/-- The bound on sums does not show once they are taken off an amount. -/
theorem sub_total_fee (fee : Amount) (refunds : Dict Refund) :
    (fee - (Fee.total (Dict.values refunds)).1).units = fee.units - feeOf refunds := by
  have := fee.units_lt
  rw [Amount.sub_units, total_fee]
  omega

theorem sub_total_gas (gas : UInt64) (refunds : Dict Refund) :
    (Saturating.sub gas (Fee.total (Dict.values refunds)).2).toNat = gas.toNat - gasOf refunds := by
  have := gas.toNat_lt
  have hsize : UInt64.size = 18446744073709551616 := rfl
  rw [Saturating.toNat_sub, total_gas]
  omega

end Fee

namespace Ledger

open Fee

/-- Fee and gas, where there are any, are what was paid less all refunds. -/
def Balanced (paid : Amount × UInt64) (l : Ledger) : Prop :=
  ∀ c ∈ l.charge, c.1.units = paid.1.units - feeOf l.refunds ∧
    c.2.toNat = paid.2.toNat - gasOf l.refunds

def Covered (paid : Amount × UInt64) (l : Ledger) : Prop :=
  feeOf l.refunds ≤ paid.1.units ∧ gasOf l.refunds ≤ paid.2.toNat

variable {paid : Amount × UInt64} {l : Ledger}

theorem refunds_after_absolute (fee : Amount) (gas : UInt64) (refunds : Dict Refund) (d : Denomination) :
    (l.after (.absolute fee gas refunds d)).refunds = l.refunds.extend refunds := rfl

/-- A charge by the paid fee less the refunds is balanced, whatever was stored. -/
theorem balanced_absolute (hl : l.refunds.Sorted) {fee : Amount} {gas : UInt64} {refunds : Dict Refund}
    (hr : refunds.Sorted) (hfee : fee.units = paid.1.units - feeOf refunds)
    (hgas : gas.toNat = paid.2.toNat - gasOf refunds) (d : Denomination) :
    Balanced paid (l.after (.absolute fee gas refunds d)) := by
  intro c hc
  cases hc
  constructor
  · rw [sub_total_fee, hfee, refunds_after_absolute, feeOf_extend hl hr, Nat.sub_sub]
  · rw [sub_total_gas, hgas, refunds_after_absolute, gasOf_extend hl hr, Nat.sub_sub]

/-- One refund more keeps the balance, known or not. -/
theorem Balanced.relativeAdjust (h : Balanced paid l) (id : String) (refund : Refund)
    (d : Denomination) : Balanced paid (l.after (.relativeAdjust id refund d)) := by
  cases hid : l.refunds.has id with
  | true => simpa [after, hid] using h
  | false =>
    have hfree : l.refunds.find? id = none := by simpa [Dict.has] using hid
    intro c hc
    simp only [after, hid, adjust, Bool.false_eq_true, ↓reduceIte, Option.mem_def,
      Option.map_eq_some_iff] at hc
    obtain ⟨b, hb, rfl⟩ := hc
    obtain ⟨hfee, hgas⟩ := h b hb
    simp only [after, hid, adjust, Bool.false_eq_true, ↓reduceIte, feeOf_insert hfree,
      gasOf_insert hfree, Amount.sub_units, Saturating.toNat_sub, hfee, hgas]
    omega

/-- Taking back a covered refund gives back exactly what it took. -/
theorem Balanced.revertRefund (h : Balanced paid l) (hl : l.refunds.Sorted) (hc : Covered paid l)
    (id : String) (d : Denomination) : Balanced paid (l.after (.revertRefund id d)) := by
  cases hf : l.refunds.find? id with
  | none => simpa [after, hf] using h
  | some refund =>
    have hfees := feeOf_erase hl hf
    have hgases := gasOf_erase hl hf
    have hp := paid.1.units_lt
    have hg := paid.2.toNat_lt
    have hsize : UInt64.size = 18446744073709551616 := rfl
    intro c hm
    simp only [after, hf, adjust, Option.mem_def, Option.map_eq_some_iff] at hm
    obtain ⟨b, hb, rfl⟩ := hm
    obtain ⟨hfee, hgas⟩ := h b hb
    obtain ⟨hcf, hcg⟩ := hc
    simp only [after, hf, adjust, Amount.add_units, Saturating.toNat_add, hfee, hgas]
    omega

end Ledger
end ChainIndex
