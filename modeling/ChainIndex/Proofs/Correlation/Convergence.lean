import ChainIndex.Proofs.Correlation.Pass

/-!
Convergence. What the document of a transaction says depends only on which passes were delivered:
each of them at least once, in any order and any number of times.
-/
namespace ChainIndex

/-- The passes agree on the transaction: on what it is, on where it is sent and executed, and on every
result. No pass calls it invalid. -/
structure Coherent (h : String) (family : List Pass) : Prop where
  sorted : ∀ p ∈ family, p.pool.transactions.Sorted ∧ p.pool.scResults.Sorted
  info : ∀ p ∈ family, ∀ q ∈ family, ∀ i j, p.info? h = some i → q.info? h = some j → i = j
  valid : ∀ p ∈ family, (p.info? h).isSome → p.status h ≠ .invalid
  place : ∀ p ∈ family, ∀ q ∈ family, (p.info? h).isSome → (q.info? h).isSome → p.status h = q.status h →
    p.shard = q.shard ∧ p.header = q.header ∧ p.entry h = q.entry h
  results : ∀ p ∈ family, ∀ q ∈ family, ∀ id i j,
    p.pool.scResults.find? id = some i → q.pool.scResults.find? id = some j → i = j

variable {h : String} {k : Setting} {family seen : List Pass} {p q : Pass}

namespace Pass

theorem isSome_of_executes (he : p.executes h = true) : (p.info? h).isSome ∧ p.status h = .executed := by
  simpa [executes] using he

theorem isSome_of_sends (hs : p.sends h = true) : (p.info? h).isSome ∧ p.status h = .pending := by
  simpa [sends] using hs

end Pass

namespace Coherent

/-- Two passes that know a refund know the same. -/
theorem refund_eq (hc : Coherent h family) (hp : p ∈ family) (hq : q ∈ family) {id : String}
    {r s : Refund} (hr : (p.pool.refundsOf h).find? id = some r)
    (hs : (q.pool.refundsOf h).find? id = some s) : r = s := by
  rw [Pool.find?_refundsOf (hc.sorted p hp).2, Option.bind_eq_some_iff] at hr
  rw [Pool.find?_refundsOf (hc.sorted q hq).2, Option.bind_eq_some_iff] at hs
  obtain ⟨i, hi, hr⟩ := hr
  obtain ⟨j, hj, hs⟩ := hs
  obtain rfl := hc.results p hp q hq id i j hi hj
  exact Option.some.inj (hr.symm.trans hs)

/-- The blocks that execute a transaction write the same record of it, and so do those that send it. -/
theorem record_eq (hc : Coherent h family) (hp : p ∈ family) (hq : q ∈ family)
    (hi : (p.info? h).isSome) (hj : (q.info? h).isSome) (hs : p.status h = q.status h) :
    p.record h k = q.record h k := by
  obtain ⟨i, hi'⟩ := Option.isSome_iff_exists.1 hi
  obtain ⟨j, hj'⟩ := Option.isSome_iff_exists.1 hj
  obtain rfl := hc.info p hp q hq i j hi' hj'
  obtain ⟨hshard, hheader, hentry⟩ := hc.place p hp q hq hi hj hs
  unfold Pass.record
  rw [hi', hj', hheader]
  unfold Pass.entry at hentry
  cases hm : p.body.miniBlockOf.find? h <;> cases hn : q.body.miniBlockOf.find? h <;>
    simp_all [Correlator.txRecord, Correlator.shards, Setting.correlator, MiniBlock.hashHex]

/-- Two blocks of the same kind write the same of the transaction. -/
theorem field_eq (hc : Coherent h family) (hp : p ∈ family) (hq : q ∈ family)
    (hi : (p.info? h).isSome) (hj : (q.info? h).isSome) (hs : p.status h = q.status h) (key : String) :
    p.field h k key = q.field h k key := by
  unfold Pass.field
  rw [hc.record_eq hp hq hi hj hs]

/-- Every record of a transaction has the same fields. -/
theorem isSome_field (hc : Coherent h family) (hp : p ∈ family) (hq : q ∈ family)
    (hi : (p.info? h).isSome) (hj : (q.info? h).isSome) (key : String) :
    (p.field h k key).isSome = (q.field h k key).isSome := by
  obtain ⟨i, hi'⟩ := Option.isSome_iff_exists.1 hi
  obtain ⟨j, hj'⟩ := Option.isSome_iff_exists.1 hj
  obtain rfl := hc.info p hp q hq i j hi' hj'
  unfold Pass.field Pass.record
  rw [hi', hj']
  refine TransactionRecord.isSome_get?_toValue ?_ ?_ ?_ ?_ key <;>
    simp only [Correlator.txRecord, Setting.correlator]

theorem executes_or_sends (hc : Coherent h family) (hp : p ∈ family) (hi : (p.info? h).isSome) :
    p.executes h = true ∨ p.sends h = true := by
  have hv := hc.valid p hp hi
  unfold Pass.executes Pass.sends
  rw [hi]
  cases hs : p.status h <;> simp_all

end Coherent

structure Ledger.Counts (h : String) (seen : List Pass) (l : Ledger) : Prop where
  refunds : ∀ id r, l.refunds.find? id = some r ↔ ∃ p ∈ seen, (p.pool.refundsOf h).find? id = some r
  charged : l.charge.isSome = seen.any fun p => (p.info? h).isSome
  balanced : ∀ p ∈ seen, ∀ info, p.info? h = some info → l.Balanced info.paid

namespace Ledger

theorem counts_empty : Counts h [] {} := ⟨by simp, rfl, by simp⟩

variable {l l' : Ledger}

/-- Only which passes were seen counts. -/
theorem Counts.ext (hl : l.Counts h seen) (hl' : l'.Counts h family) (hs : l.refunds.Sorted)
    (hs' : l'.refunds.Sorted) (same : ∀ p, p ∈ seen ↔ p ∈ family) : l = l' := by
  refine ext_of_balanced hs hs' (fun id r => ?_) ?_ fun hcharge => ?_
  · simp only [hl.refunds, hl'.refunds, same]
  · rw [hl.charged, hl'.charged, Bool.eq_iff_iff]
    simp only [List.any_eq_true, same]
  · rw [hl.charged, List.any_eq_true] at hcharge
    obtain ⟨p, hp, hi⟩ := hcharge
    obtain ⟨info, hi⟩ := Option.isSome_iff_exists.1 hi
    exact ⟨info.paid, hl.balanced p hp info hi, hl'.balanced p ((same p).1 hp) info hi⟩

/-- A pass that holds the transaction charges the ledger and enters its refunds. -/
theorem Counts.charged_cons (hl : l.Counts h seen) (hs : l.refunds.Sorted) (hc : Coherent h family)
    (hp : p ∈ family) (hsub : ∀ q ∈ seen, q ∈ family) {info : TxInfo} (hi : p.info? h = some info)
    (c : Correlator) : (l.charged c info (p.pool.refundsOf h)).Counts h (p :: seen) where
  refunds id r := by
    have hr := p.pool.sorted_refundsOf h
    rw [find?_charged c info hr]
    simp only [List.mem_cons, exists_eq_or_imp, ← hl.refunds]
    cases hf : (p.pool.refundsOf h).find? id with
    | none => simp
    | some r' =>
      refine ⟨.inl, ?_⟩
      rintro (he | he)
      · exact he
      · obtain ⟨q, hq, hqr⟩ := (hl.refunds id r).1 he
        rw [hc.refund_eq hp (hsub q hq) hf hqr]
        rfl
  charged := by simp [isSome_charge_charged, hi]
  balanced q hq i hqi := by
    have hmem : q ∈ family := by
      rcases List.mem_cons.1 hq with rfl | hq
      · exact hp
      · exact hsub q hq
    obtain rfl := hc.info p hp q hmem info i hi hqi
    exact balanced_charged c info hs (p.pool.sorted_refundsOf h)

/-- A pass without the transaction enters its refunds only. -/
theorem Counts.credited_cons (hl : l.Counts h seen) (hc : Coherent h family) (hp : p ∈ family)
    (hsub : ∀ q ∈ seen, q ∈ family) (hi : p.info? h = none) (d : Denomination) :
    (l.credited d (p.pool.refundsOf h)).Counts h (p :: seen) where
  refunds id r := by
    rw [find?_credited]
    simp only [List.mem_cons, exists_eq_or_imp, ← hl.refunds]
    cases hf : l.refunds.find? id with
    | none => simp
    | some r' =>
      obtain ⟨q, hq, hqr⟩ := (hl.refunds id r').1 hf
      refine ⟨.inr, ?_⟩
      rintro (he | he)
      · rw [hc.refund_eq hp (hsub q hq) he hqr]
        rfl
      · exact he
  charged := by simp [isSome_charge_credited, hi, hl.charged]
  balanced q hq i hqi := by
    rcases List.mem_cons.1 hq with rfl | hq
    · rw [hi] at hqi
      cases hqi
    · exact (hl.balanced q hq i hqi).credited d _

end Ledger

/-- The fields that are not those of one record: of the ledger, of the status, the type and the mark. -/
def sharedFields : List String := Rollback.hasScResults :: TransactionRecord.foreignFields

theorem not_mem_sharedFields {key : String} (hk : key ∉ sharedFields) :
    key ≠ Rollback.hasScResults ∧ key ≠ "type" ∧ key ∉ Fee.fields ∧ key ∉ StatusInfo.fieldNames := by
  simpa [sharedFields, TransactionRecord.foreignFields, not_or] using hk

/-- A field of the record: as the executing blocks have it, or else as the sending ones do. -/
structure FieldOf (k : Setting) (h key : String) (seen : List Pass) (v : Option Value) : Prop where
  executed : ∀ p ∈ seen, p.executes h = true → v = p.field h k key
  sent : (seen.any fun p => p.executes h) = false → ∀ p ∈ seen, p.sends h = true → v = p.field h k key
  unknown : (seen.any fun p => p.executes h) = false → (seen.any fun p => p.sends h) = false → v = none

namespace FieldOf

variable {key : String} {v : Option Value}

theorem empty : FieldOf k h key [] none := ⟨by simp, by simp, by simp⟩

theorem ext (hv : FieldOf k h key seen v) {w : Option Value} (hw : FieldOf k h key family w)
    (same : ∀ p, p ∈ seen ↔ p ∈ family) : v = w := by
  have any_eq (f : Pass → Bool) : seen.any f = family.any f := by
    rw [Bool.eq_iff_iff]
    simp only [List.any_eq_true, same]
  cases he : seen.any fun p => p.executes h with
  | true =>
    obtain ⟨p, hp, hx⟩ := List.any_eq_true.1 he
    exact (hv.executed p hp hx).trans (hw.executed p ((same p).1 hp) hx).symm
  | false =>
    have he' := (any_eq _).symm.trans he
    cases hs : seen.any fun p => p.sends h with
    | true =>
      obtain ⟨p, hp, hx⟩ := List.any_eq_true.1 hs
      exact (hv.sent he p hp hx).trans (hw.sent he' p ((same p).1 hp) hx).symm
    | false => exact (hv.unknown he hs).trans (hw.unknown he' ((any_eq _).symm.trans hs)).symm

/-- A field that a block of the transaction lacks is in no document of it. -/
theorem eq_none (hv : FieldOf k h key seen v) (hc : Coherent h family) (hp : p ∈ family)
    (hsub : ∀ q ∈ seen, q ∈ family) (hi : (p.info? h).isSome) (hn : p.field h k key = none) : v = none := by
  have lacks (q : Pass) (hq : q ∈ seen) (hj : (q.info? h).isSome) : q.field h k key = none := by
    have hsome := hc.isSome_field (k := k) hp (hsub q hq) hi hj key
    rw [hn] at hsome
    simpa using hsome.symm
  cases he : seen.any fun p => p.executes h with
  | true =>
    obtain ⟨q, hq, hx⟩ := List.any_eq_true.1 he
    rw [hv.executed q hq hx, lacks q hq (Pass.isSome_of_executes hx).1]
  | false =>
    cases hs : seen.any fun p => p.sends h with
    | true =>
      obtain ⟨q, hq, hx⟩ := List.any_eq_true.1 hs
      rw [hv.sent he q hq hx, lacks q hq (Pass.isSome_of_sends hx).1]
    | false => exact hv.unknown he hs

/-- The executing block replaces what is stored of a field. -/
theorem execute (hv : FieldOf k h key seen v) (hc : Coherent h family) (hp : p ∈ family)
    (hsub : ∀ q ∈ seen, q ∈ family) (hx : p.executes h = true) :
    FieldOf k h key (p :: seen) ((p.field h k key).or v) := by
  obtain ⟨hi, hstatus⟩ := Pass.isSome_of_executes hx
  have hself : (p.field h k key).or v = p.field h k key := by
    cases hf : p.field h k key with
    | none => simpa using hv.eq_none hc hp hsub hi hf
    | some w => rfl
  refine ⟨fun q hq hxq => ?_, fun he => ?_, fun he => ?_⟩
  · rw [hself]
    rcases List.mem_cons.1 hq with rfl | hq
    · rfl
    · obtain ⟨hj, hstatus'⟩ := Pass.isSome_of_executes hxq
      exact hc.field_eq hp (hsub q hq) hi hj (hstatus.trans hstatus'.symm) key
  · simp [hx] at he
  · simp [hx] at he

/-- The sending block only fills in what is missing. -/
theorem send (hv : FieldOf k h key seen v) (hc : Coherent h family) (hp : p ∈ family)
    (hsub : ∀ q ∈ seen, q ∈ family) (hx : p.sends h = true) :
    FieldOf k h key (p :: seen) (v.or (p.field h k key)) := by
  obtain ⟨hi, hstatus⟩ := Pass.isSome_of_sends hx
  have hnot : p.executes h = false := by simp [Pass.executes, hstatus]
  have hself (hsome : v = none → p.field h k key = none) : v.or (p.field h k key) = v := by
    cases v with
    | none => simpa using hsome rfl
    | some w => rfl
  refine ⟨fun q hq hxq => ?_, fun he q hq hsq => ?_, fun _ hs => ?_⟩
  · rcases List.mem_cons.1 hq with rfl | hq
    · simp [hnot] at hxq
    · have hvq := hv.executed q hq hxq
      obtain ⟨hj, -⟩ := Pass.isSome_of_executes hxq
      have hsome := hc.isSome_field (k := k) hp (hsub q hq) hi hj key
      rw [hself fun hnone => ?_, hvq]
      rw [← hvq, hnone] at hsome
      simpa using hsome
  · have he' : (seen.any fun p => p.executes h) = false := by simpa [hnot] using he
    have hmem : q ∈ family := by
      rcases List.mem_cons.1 hq with rfl | hq
      · exact hp
      · exact hsub q hq
    obtain ⟨hj, hstatus'⟩ := Pass.isSome_of_sends hsq
    rw [← hc.field_eq hp hmem hi hj (hstatus.trans hstatus'.symm) key]
    cases hs : seen.any fun p => p.sends h with
    | true =>
      obtain ⟨q', hq', hx'⟩ := List.any_eq_true.1 hs
      obtain ⟨hj', hstatus''⟩ := Pass.isSome_of_sends hx'
      rw [hv.sent he' q' hq' hx',
        ← hc.field_eq hp (hsub q' hq') hi hj' (hstatus.trans hstatus''.symm) key, Option.or_self]
    | false => rw [hv.unknown he' hs, Option.none_or]
  · simp [hx] at hs

theorem pass (hv : FieldOf k h key seen v) (hi : p.info? h = none) : FieldOf k h key (p :: seen) v := by
  have hx : p.executes h = false := by simp [Pass.executes, hi]
  have hs : p.sends h = false := by simp [Pass.sends, hi]
  refine ⟨fun q hq hxq => ?_, fun he q hq hsq => ?_, fun he hn => hv.unknown ?_ ?_⟩
  · rcases List.mem_cons.1 hq with rfl | hq
    · simp [hx] at hxq
    · exact hv.executed q hq hxq
  · rcases List.mem_cons.1 hq with rfl | hq
    · simp [hs] at hsq
    · exact hv.sent (by simpa [hx] using he) q hq hsq
  · simpa [hx] using he
  · simpa [hs] using hn

end FieldOf

def latchedBy (k : Setting) (h : String) (seen : List Pass) : Option StatusInfo :=
  StatusInfo.ofEvents (seen.any fun p => p.latches h k) (seen.any fun p => p.completes h k)
    (seen.any fun p => p.fails h k)

def labelBy (h : String) (seen : List Pass) : Option String :=
  if seen.any fun p => p.sends h then some TxStatus.pending.label else none

theorem labelBy_cons (hx : p.sends h = false) : labelBy h (p :: seen) = labelBy h seen := by
  simp [labelBy, hx]

theorem labelBy_cons_of_sends (hx : p.sends h = true) :
    labelBy h (p :: seen) = (labelBy h seen).or (some TxStatus.pending.label) := by
  cases hs : seen.any fun p => p.sends h <;> simp [labelBy, hx, hs]

theorem flags_of_not_latched (hl : (seen.any fun p => p.latches h k) = false) :
    (seen.any fun p => p.completes h k) = false ∧ (seen.any fun p => p.fails h k) = false := by
  simp only [List.any_eq_false, Pass.latches, Bool.or_eq_true, not_or] at hl ⊢
  refine ⟨fun p hp => ?_, fun p hp => ?_⟩
  · have hnone : (k.signals p).find? h = none := by simpa [Dict.has] using (hl p hp).2
    simp [Pass.completes, hnone]
  · have hnone : (k.signals p).find? h = none := by simpa [Dict.has] using (hl p hp).2
    simp [Pass.fails, hnone]

/-- The signal of a pass is latched once more without effect, or for the first time. -/
theorem latchedBy_cons (hx : p.executes h = false) (label : Option String) :
    ((k.signals p).find? h).toList.foldl (StatusInfo.latchOn label) (latchedBy k h seen) =
      latchedBy k h (p :: seen) := by
  unfold latchedBy
  rw [StatusInfo.foldl_latchOn_toList flags_of_not_latched label fun s => k.plain_signals p h]
  simp only [List.any_cons, Pass.latches, hx, Bool.false_or]
  rfl

theorem latchedBy_cons_of_executes (hx : p.executes h = true) (label : Option String) :
    (StatusInfo.ofFlags false false :: ((k.signals p).find? h).toList).foldl (StatusInfo.latchOn label)
      (latchedBy k h seen) = latchedBy k h (p :: seen) := by
  unfold latchedBy
  rw [List.foldl_cons, StatusInfo.latchOn_ofEvents flags_of_not_latched, Bool.or_false, Bool.or_false,
    StatusInfo.foldl_latchOn_toList (by simp) label fun s => k.plain_signals p h]
  simp only [List.any_cons, Pass.latches, hx, Bool.true_or, Bool.or_true]
  rfl

structure Describes (k : Setting) (h : String) (type : Option Value) (seen : List Pass) (doc : Value) :
    Prop where
  ledger : ∃ l : Ledger, l.Shows k.denomination doc ∧ l.Counts h seen
  status : StatusInfo.Shows (latchedBy k h seen) (labelBy h seen) doc
  mark : doc.get? Rollback.hasScResults =
    if seen.any fun p => p.marks h then some (.bool true) else none
  type : doc.get? "type" = type
  record : ∀ key ∉ sharedFields, FieldOf k h key seen (doc.get? key)

namespace Describes

variable {type : Option Value} {doc : Value}

theorem empty : Describes k h none [] .empty :=
  ⟨⟨{}, Ledger.shows_empty, Ledger.counts_empty⟩, StatusInfo.shows_empty, rfl, rfl, fun _ _ => .empty⟩

theorem ext (hd : Describes k h type seen doc) {other : Value} (ho : Describes k h type family other)
    (same : ∀ p, p ∈ seen ↔ p ∈ family) : doc = other := by
  obtain ⟨l, hl, hcounts⟩ := hd.ledger
  obtain ⟨l', hl', hcounts'⟩ := ho.ledger
  have hledger : l = l' := hcounts.ext hcounts' hl.sorted hl'.sorted same
  subst hledger
  have any_eq (f : Pass → Bool) : seen.any f = family.any f := by
    rw [Bool.eq_iff_iff]
    simp only [List.any_eq_true, same]
  have hlatched : latchedBy k h seen = latchedBy k h family := by simp only [latchedBy, any_eq]
  have hlabel : labelBy h seen = labelBy h family := by simp only [labelBy, any_eq]
  refine hl.record.ext hl'.record fun key => ?_
  by_cases hkey : key ∈ sharedFields
  · simp only [sharedFields, TransactionRecord.foreignFields, Fee.fields, StatusInfo.fieldNames,
      List.cons_append, List.nil_append, List.mem_cons, List.not_mem_nil, or_false] at hkey
    rcases hkey with rfl | rfl | rfl | rfl | rfl | rfl | rfl | rfl | rfl
    · rw [hd.mark, ho.mark, any_eq]
    · rw [hd.type, ho.type]
    · rw [hl.fee, hl'.fee]
    · rw [hl.feeNum, hl'.feeNum]
    · rw [hl.gasUsed, hl'.gasUsed]
    · rw [hl.refunds, hl'.refunds]
    · rw [hd.status.completed, ho.status.completed, hlatched]
    · rw [hd.status.failed, ho.status.failed, hlatched]
    · rw [hd.status.status, ho.status.status, hlatched, hlabel]
  · exact (hd.record key hkey).ext (ho.record key hkey) same

/-- A block that holds the transaction. -/
theorem hold (hd : Describes k h type seen doc) (hc : Coherent h family) (hp : p ∈ family)
    (hsub : ∀ q ∈ seen, q ∈ family) {info : TxInfo} (hi : p.info? h = some info) :
    Describes k h type (p :: seen) (Mutation.applyAll
      ((k.correlator p).correlatedTx p.header p.body p.pool (k.signals p) h info).mutations doc) := by
  generalize htx : (k.correlator p).correlatedTx p.header p.body p.pool (k.signals p) h info = tx
  have hstatus : tx.status = p.status h := by subst htx; rfl
  have hfee : tx.fee = (k.correlator p).absoluteFee info (p.pool.refundsOf h) := by subst htx; rfl
  have hsignal : tx.signal = (k.signals p).find? h := by subst htx; rfl
  have hfields (key : String) := htx ▸ p.get?_correlatedTx h k hi key
  have hsome : (p.info? h).isSome = true := by simp [hi]
  have hkinds := hc.executes_or_sends hp hsome
  obtain ⟨l, hl, hcounts⟩ := hd.ledger
  refine ⟨⟨l.charged (k.correlator p) info (p.pool.refundsOf h), ?_,
    hcounts.charged_cons hl.sorted hc hp hsub hi _⟩, ?_, ?_, ?_, fun key hkey => ?_⟩
  · rw [Ledger.charged, ← hfee]
    refine tx.shows_mutations ?_ hl
    rw [hfee, Correlator.absoluteFee_eq]
    rfl
  · have hshows := tx.showsStatus_mutations hd.status
    rcases hkinds with hx | hx
    · have hnot : p.sends h = false := by simp [Pass.sends, (Pass.isSome_of_executes hx).2]
      have hlabel : tx.label (labelBy h seen) = labelBy h (p :: seen) := by
        rw [CorrelatedTx.label, hstatus, (Pass.isSome_of_executes hx).2, labelBy_cons hnot]
        rfl
      have hsignals : tx.signals = .ofFlags false false :: ((k.signals p).find? h).toList := by
        rw [CorrelatedTx.signals, hstatus, hsignal, (Pass.isSome_of_executes hx).2]
        rfl
      rwa [hlabel, hsignals, latchedBy_cons_of_executes hx] at hshows
    · have hnot : p.executes h = false := by simp [Pass.executes, (Pass.isSome_of_sends hx).2]
      have hlabel : tx.label (labelBy h seen) = labelBy h (p :: seen) := by
        rw [CorrelatedTx.label, hstatus, (Pass.isSome_of_sends hx).2, labelBy_cons_of_sends hx]
        rfl
      have hsignals : tx.signals = ((k.signals p).find? h).toList := by
        rw [CorrelatedTx.signals, hstatus, hsignal, (Pass.isSome_of_sends hx).2]
        rfl
      rwa [hlabel, hsignals, latchedBy_cons hnot] at hshows
  · rw [tx.get?_mutations doc (by decide) (by decide), hfields, if_pos rfl, hd.mark, List.any_cons]
    cases p.marks h <;> cases seen.any fun p => p.marks h <;> simp
  · have hnone : tx.record.toJson.toValue.get? "type" = none := tx.record.get?_toValue_of_mem (by decide)
    rw [tx.get?_mutations doc (by decide) (by decide), hnone, Option.none_or, Option.or_none, ite_self]
    exact hd.type
  · obtain ⟨hmark, -, hkf, hks⟩ := not_mem_sharedFields hkey
    rw [tx.get?_mutations doc hkf hks, hfields, if_neg hmark, hstatus]
    rcases hkinds with hx | hx
    · rw [(Pass.isSome_of_executes hx).2]
      exact (hd.record key hkey).execute hc hp hsub hx
    · rw [(Pass.isSome_of_sends hx).2]
      exact (hd.record key hkey).send hc hp hsub hx

/-- A block with results or logs of a transaction that it does not hold. -/
theorem bring (hd : Describes k h type seen doc) (hc : Coherent h family) (hp : p ∈ family)
    (hsub : ∀ q ∈ seen, q ∈ family) (hi : p.info? h = none) :
    Describes k h type (p :: seen) (Mutation.applyAll
      (ForeignUpdate.mutations k.denomination
        ⟨p.marks h, p.pool.refundsOf h, (k.signals p).find? h⟩) doc) := by
  generalize hu : (⟨p.marks h, p.pool.refundsOf h, (k.signals p).find? h⟩ : ForeignUpdate) = u
  have hx : p.executes h = false := by simp [Pass.executes, hi]
  have hs : p.sends h = false := by simp [Pass.sends, hi]
  obtain ⟨l, hl, hcounts⟩ := hd.ledger
  refine ⟨⟨l.credited k.denomination (p.pool.refundsOf h), ?_, hcounts.credited_cons hc hp hsub hi _⟩,
    ?_, ?_, ?_, fun key hkey => ?_⟩
  · have hrefunds : u.refunds = p.pool.refundsOf h := by subst hu; rfl
    rw [← hrefunds]
    exact u.shows_mutations hl
  · have hshows := u.showsStatus_mutations hd.status k.denomination
    subst hu
    rwa [labelBy_cons hs, ← latchedBy_cons hx]
  · rw [u.get?_mutations k.denomination doc (by decide) (by decide), hd.mark, List.any_cons]
    subst hu
    cases p.marks h <;> cases seen.any fun p => p.marks h <;> simp
  · rw [u.get?_mutations k.denomination doc (by decide) (by decide), if_neg fun hm => absurd hm.2 (by decide)]
    exact hd.type
  · obtain ⟨hmark, -, hkf, hks⟩ := not_mem_sharedFields hkey
    rw [u.get?_mutations k.denomination doc hkf hks, if_neg fun hm => hmark hm.2.symm]
    exact (hd.record key hkey).pass hi

/-- A block that has nothing to do with the transaction. -/
theorem skip (hd : Describes k h type seen doc) (ht : p.touches h k = false) :
    Describes k h type (p :: seen) doc := by
  simp only [Pass.touches, Bool.or_eq_false_iff, Option.isSome_eq_false_iff, Option.isNone_iff_eq_none] at ht
  obtain ⟨⟨hi, hmarks⟩, hsignal⟩ := ht
  have hx : p.executes h = false := by simp [Pass.executes, hi]
  have hs : p.sends h = false := by simp [Pass.sends, hi]
  have hnil : p.pool.refundsOf h = [] := Pool.refundsOf_eq_nil (by simpa [Pass.marks] using hmarks)
  have hnone : (k.signals p).find? h = none := by simpa [Dict.has] using hsignal
  obtain ⟨l, hl, hcounts⟩ := hd.ledger
  refine ⟨⟨l, hl, fun id r => ?_, ?_, fun q hq info hqi => ?_⟩, ?_, ?_, hd.type,
    fun key hkey => (hd.record key hkey).pass hi⟩
  · simp [hcounts.refunds, hnil]
  · simp [hcounts.charged, hi]
  · rcases List.mem_cons.1 hq with rfl | hq
    · simp [hi] at hqi
    · exact hcounts.balanced q hq info hqi
  · rw [labelBy_cons hs, ← latchedBy_cons hx none, hnone]
    exact hd.status
  · rw [hd.mark, List.any_cons, hmarks, Bool.false_or]

/-- The type is put on top of what the passes say. -/
theorem operationType (hd : Describes k h type seen doc) :
    Describes k h (some (.str "normal")) seen (CorrelatedBlock.operationType.apply doc) := by
  have hother (key : String) (hk : "type" ≠ key) :
      (CorrelatedBlock.operationType.apply doc).get? key = doc.get? key := by
    rw [CorrelatedBlock.get?_operationType, if_neg hk]
  obtain ⟨l, hl, hcounts⟩ := hd.ledger
  refine ⟨⟨l, hl.of_get? (CorrelatedBlock.isRecord_operationType hl.record) fun key hk => ?_, hcounts⟩,
    hd.status.of_get? fun key hk => ?_, ?_, ?_, fun key hkey => ?_⟩
  · exact hother key fun he => absurd (he ▸ hk) (by decide)
  · exact hother key fun he => absurd (he ▸ hk) (by decide)
  · rw [hother _ (by decide), hd.mark]
  · rw [CorrelatedBlock.get?_operationType, if_pos rfl]
  · rw [hother key (not_mem_sharedFields hkey).2.1.symm]
    exact hd.record key hkey

end Describes
end ChainIndex
