import ChainIndex.Correlation.Basic
import ChainIndex.Proofs.Fee.Balance

/-!
The charge of a block that holds a transaction, and the refunds of blocks that do not. Either keeps
the fee at what was paid less all refunds seen.
-/
namespace ChainIndex

/-- What was paid for a transaction: fee and gas limit at first, or else fee and gas as charged. -/
def TxInfo.paid (info : TxInfo) : Amount × UInt64 :=
  if 0 < info.feeInfo.initialPaidFee.units then (info.feeInfo.initialPaidFee, info.transaction.gasLimit)
  else (info.feeInfo.fee, info.feeInfo.gasUsed)

/-- An absolute fee is what was paid less the refunds that came with the transaction. -/
theorem Correlator.absoluteFee_eq (c : Correlator) (info : TxInfo) (refunds : Dict Refund) :
    c.absoluteFee info refunds =
      .absolute (info.paid.1 - (Fee.total (Dict.values refunds)).1)
        (Saturating.sub info.paid.2 (Fee.total (Dict.values refunds)).2) refunds c.denomination := by
  by_cases h : 0 < info.feeInfo.initialPaidFee.units <;> simp [absoluteFee, TxInfo.paid, h]

namespace Ledger

variable {l : Ledger} {paid : Amount × UInt64} {d : Denomination} {refunds : Dict Refund}

def charged (c : Correlator) (info : TxInfo) (refunds : Dict Refund) (l : Ledger) : Ledger :=
  l.after (c.absoluteFee info refunds)

theorem find?_charged (c : Correlator) (info : TxInfo) (hr : refunds.Sorted) (l : Ledger) (id : String) :
    (l.charged c info refunds).refunds.find? id = (refunds.find? id).or (l.refunds.find? id) := by
  rw [charged, c.absoluteFee_eq, refunds_after_absolute, Dict.find?_extend, Dict.find?_reverse hr]

theorem isSome_charge_charged (c : Correlator) (info : TxInfo) (refunds : Dict Refund) (l : Ledger) :
    (l.charged c info refunds).charge.isSome = true := by
  rw [charged, c.absoluteFee_eq]
  rfl

theorem balanced_charged (c : Correlator) (info : TxInfo) (hl : l.refunds.Sorted) (hr : refunds.Sorted) :
    (l.charged c info refunds).Balanced info.paid := by
  rw [charged, c.absoluteFee_eq]
  exact balanced_absolute hl hr (Fee.sub_total_fee _ _) (Fee.sub_total_gas _ _) _

def credited (d : Denomination) (refunds : Dict Refund) (l : Ledger) : Ledger :=
  refunds.foldl (fun l e => l.after (.relativeAdjust e.1 e.2 d)) l

theorem find?_after_relativeAdjust (l : Ledger) (id : String) (refund : Refund) (other : String) :
    (l.after (.relativeAdjust id refund d)).refunds.find? other =
      (l.refunds.find? other).or (if id = other then some refund else none) := by
  simp only [after]
  split
  · next hid =>
    obtain ⟨known, hk⟩ := Option.isSome_iff_exists.1 hid
    by_cases ho : id = other
    · subst ho
      simp [hk]
    · simp [ho]
  · next hid =>
    have hn : l.refunds.find? id = none := by simpa [Dict.has] using hid
    simp only [adjust, Dict.find?_insert]
    by_cases ho : id = other
    · subst ho
      simp [hn]
    · simp [ho]

theorem isSome_charge_after_relativeAdjust (l : Ledger) (id : String) (refund : Refund) :
    (l.after (.relativeAdjust id refund d)).charge.isSome = l.charge.isSome := by
  simp only [after]
  split <;> simp [adjust]

/-- A refund that is known already is not credited again. -/
theorem find?_credited (d : Denomination) (refunds : Dict Refund) (l : Ledger) (id : String) :
    (l.credited d refunds).refunds.find? id = (l.refunds.find? id).or (refunds.find? id) := by
  induction refunds generalizing l with
  | nil => simp [credited]
  | cons e rest ih =>
    obtain ⟨key, refund⟩ := e
    refine (ih _).trans ?_
    rw [find?_after_relativeAdjust, Dict.find?, Option.or_assoc]
    by_cases hk : key = id <;> simp [hk]

theorem isSome_charge_credited (d : Denomination) (refunds : Dict Refund) (l : Ledger) :
    (l.credited d refunds).charge.isSome = l.charge.isSome := by
  induction refunds generalizing l with
  | nil => rfl
  | cons e rest ih => exact (ih _).trans (isSome_charge_after_relativeAdjust l e.1 e.2)

/-- Refunds that are all known change nothing. -/
theorem credited_eq_self (h : ∀ e ∈ refunds, l.refunds.has e.1 = true) :
    l.credited d refunds = l := by
  induction refunds with
  | nil => rfl
  | cons e rest ih =>
    obtain ⟨he, hrest⟩ := List.forall_mem_cons.1 h
    have hskip : l.after (.relativeAdjust e.1 e.2 d) = l := by simp [after, he]
    change (l.after (.relativeAdjust e.1 e.2 d)).credited d rest = l
    rw [hskip, ih hrest]

theorem credited_credited (l : Ledger) (refunds : Dict Refund) :
    (l.credited d refunds).credited d refunds = l.credited d refunds := by
  refine credited_eq_self fun e he => ?_
  have hfound : (Dict.find? refunds e.1).isSome = true := Dict.has_iff.2 (List.mem_map.2 ⟨e, he, rfl⟩)
  rw [Dict.has, find?_credited, Option.isSome_or, hfound, Bool.or_true]

theorem Balanced.credited (h : l.Balanced paid) (d : Denomination) (refunds : Dict Refund) :
    (l.credited d refunds).Balanced paid := by
  induction refunds generalizing l with
  | nil => exact h
  | cons e rest ih => exact ih (h.relativeAdjust e.1 e.2 d)

/-- Charges are the same if both are there or neither is, and they are worth the same. -/
theorem charge_ext {l' : Ledger} (charged : l.charge.isSome = l'.charge.isSome)
    (worth : ∀ c ∈ l.charge, ∃ c' ∈ l'.charge, c'.1.units = c.1.units ∧ c'.2.toNat = c.2.toNat) :
    l.charge = l'.charge := by
  cases hc : l.charge with
  | none =>
    rw [hc] at charged
    exact (Option.isNone_iff_eq_none.1 (by simpa using charged.symm)).symm
  | some c =>
    obtain ⟨c', hc', hfee, hgas⟩ := worth c hc
    have hsame : c' = c := Prod.ext (Amount.ext hfee) (UInt64.toNat_inj.1 hgas)
    exact (hsame ▸ hc').symm

/-- Ledgers of one transaction with the same refunds are the same. -/
theorem ext_of_balanced {l' : Ledger} (hs : l.refunds.Sorted) (hs' : l'.refunds.Sorted)
    (refunds : ∀ id r, l.refunds.find? id = some r ↔ l'.refunds.find? id = some r)
    (charged : l.charge.isSome = l'.charge.isSome)
    (balanced : l.charge.isSome → ∃ paid, l.Balanced paid ∧ l'.Balanced paid) : l = l' := by
  have hr : l.refunds = l'.refunds := hs.ext hs' fun id => Option.ext fun r => refunds id r
  have hc : l.charge = l'.charge := charge_ext charged fun c hl => by
    have hsome : l.charge.isSome = true := Option.isSome_of_mem hl
    obtain ⟨paid, hb, hb'⟩ := balanced hsome
    obtain ⟨c', hc'⟩ := Option.isSome_iff_exists.1 (charged ▸ hsome)
    have hfee := (hb c hl).1.trans (hr ▸ (hb' c' hc').1.symm)
    have hgas := (hb c hl).2.trans (hr ▸ (hb' c' hc').2.symm)
    exact ⟨c', hc', hfee.symm, hgas.symm⟩
  exact Ledger.ext hc hr

end Ledger
end ChainIndex
