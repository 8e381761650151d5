import ChainIndex.Proofs.Indexer.Records

/-!
Stores reached by saving blocks. What such a store holds of a transaction is accounted for by the
blocks: its charge by one that holds the transaction, each of its refunds by one with the result.
-/
namespace ChainIndex

/-- The stores reached from an empty one by saving blocks, the last of them first; all indexers have
one denomination. -/
inductive Reached (d : Denomination) : List Block → Store → Prop where
  | start (n : Nat) : Reached d [] (Store.withPageSize n)
  | save {blocks : List Block} {s : Store} (ix : Indexer) {block : Block} {report : FlushReport} :
      Reached d blocks s → ix.denomination = d → block.Ordered →
      (ix.saveBlock block s).1 = .ok report → Reached d (block :: blocks) (ix.saved block s)

variable {d : Denomination} {blocks : List Block} {block : Block} {s : Store} {name id : String}
  {doc : Value}

theorem Reached.usable (h : Reached d blocks s) : s.Usable := by
  induction h with
  | start n => exact Store.usable_withPageSize n
  | save ix _ _ _ _ ih => exact ix.usable_saved _ ih

def Block.Refunds (block : Block) (hash id : String) (refund : Refund) : Prop :=
  ∃ info, block.pool.scResults.find? hash = some info ∧ info.refundTo? id = some refund

structure Accounted (blocks : List Block) (id : String) (l : Ledger) : Prop where
  refunds : ∀ hash refund, l.refunds.find? hash = some refund → ∃ block ∈ blocks, block.Refunds hash id refund
  charge : l.charge = none ∨ ∃ block ∈ blocks, ∃ info,
    block.pool.transactions.find? id = some info ∧ l.Balanced info.paid

namespace Accounted

variable {l : Ledger}

theorem empty : Accounted blocks id {} := ⟨nofun, .inl rfl⟩

theorem mono (h : Accounted blocks id l) (block : Block) : Accounted (block :: blocks) id l := by
  refine ⟨fun hash refund hf => ?_, h.charge.imp (fun hnone => hnone) ?_⟩
  · obtain ⟨b, hb, hr⟩ := h.refunds hash refund hf
    exact ⟨b, List.mem_cons_of_mem _ hb, hr⟩
  · rintro ⟨b, hb, info⟩
    exact ⟨b, List.mem_cons_of_mem _ hb, info⟩

theorem balanced (h : Accounted blocks id l) : ∃ paid, l.Balanced paid := by
  rcases h.charge with hnone | ⟨-, -, info, -, hb⟩
  · exact ⟨(.zero, 0), fun c hc => by simp [hnone] at hc⟩
  · exact ⟨info.paid, hb⟩

theorem find?_refundsOf {block : Block} (hb : block.Ordered) {hash : String} {refund : Refund}
    (h : (block.pool.refundsOf id).find? hash = some refund) : block.Refunds hash id refund := by
  rw [Pool.find?_refundsOf hb.scResults, Option.bind_eq_some_iff] at h
  exact h

/-- A block that holds the transaction charges it anew. -/
theorem charged (h : Accounted blocks id l) (hs : l.refunds.Sorted) (hb : block.Ordered) (c : Correlator)
    {info : TxInfo} (hi : block.pool.transactions.find? id = some info) :
    Accounted (block :: blocks) id (l.charged c info (block.pool.refundsOf id)) := by
  have hsorted := block.pool.sorted_refundsOf id
  refine ⟨fun hash refund hf => ?_, .inr ⟨block, List.mem_cons_self, info, hi, ?_⟩⟩
  · rw [Ledger.find?_charged c info hsorted, Option.or_eq_some_iff] at hf
    rcases hf with hf | ⟨-, hf⟩
    · exact ⟨block, List.mem_cons_self, find?_refundsOf hb hf⟩
    · exact (h.mono block).refunds hash refund hf
  · exact Ledger.balanced_charged c info hs hsorted

/-- A block without the transaction credits it with the refunds of its results. -/
theorem credited (h : Accounted blocks id l) (hb : block.Ordered) :
    Accounted (block :: blocks) id (l.credited d (block.pool.refundsOf id)) := by
  refine ⟨fun hash refund hf => ?_, ?_⟩
  · rw [Ledger.find?_credited, Option.or_eq_some_iff] at hf
    rcases hf with hf | ⟨-, hf⟩
    · exact (h.mono block).refunds hash refund hf
    · exact ⟨block, List.mem_cons_self, find?_refundsOf hb hf⟩
  · rcases h.charge with hnone | ⟨b, hm, info, hi, hbal⟩
    · have hsome := Ledger.isSome_charge_credited d (block.pool.refundsOf id) l
      rw [hnone] at hsome
      exact .inl (Option.isNone_iff_eq_none.1 (by simpa using hsome))
    · exact .inr ⟨b, List.mem_cons_of_mem _ hm, info, hi, hbal.credited d _⟩

end Accounted

/-- The document of a result shows a ledger, the empty one. -/
theorem Ledger.shows_resultDocument (ix : Indexer) (block : Block) {result : Value}
    (h : ix.resultDocument block id = some result) :
    ({} : Ledger).Shows d (result.set "type" (.str "unsigned")) := by
  obtain ⟨info, -, rfl⟩ := Option.map_eq_some_iff.1 h
  have hrecord := ScResultRecord.isRecord_toValue
    (ix.correlator.scResultRecord id info block.header (block.body.miniBlockOf.find? id))
  have hfree : ∀ key ∈ Fee.fields, ((ix.correlator.scResultRecord id info block.header
      (block.body.miniBlockOf.find? id)).toJson.toValue.set "type" (.str "unsigned")).get? key = none := by
    intro key hk
    rw [Value.get?_set, if_neg (by rintro rfl; exact absurd hk (by decide))]
    refine ScResultRecord.get?_toValue_eq_none _ ?_
    simp only [Fee.fields, List.mem_cons, List.not_mem_nil, or_false] at hk
    rcases hk with rfl | rfl | rfl | rfl <;> decide
  exact (Ledger.shows_empty (d := d)).of_get? (hrecord.set _ _) fun key hk => (hfree key hk).trans rfl

/-- What a block makes of the ledger that a document shows. -/
theorem Indexer.exists_shows_recordAfter (ix : Indexer) (block : Block) {stored : Option Value} {l : Ledger}
    (hd : ix.denomination = d) (h : l.Shows d (stored.getD .empty))
    (hdoc : ix.recordAfter block name id stored = some doc) : ∃ l' : Ledger, l'.Shows d doc ∧ (l' = {} ∨
      (∃ info, block.pool.transactions.find? id = some info ∧
        l' = l.charged ix.correlator info (block.pool.refundsOf id)) ∨
      l' = l.credited d (block.pool.refundsOf id) ∨ l' = l) := by
  rcases ix.recordAfter_cases block hdoc with
    ⟨result, -, -, -, hr, rfl⟩ | ⟨info, hi, rfl⟩ | ⟨-, rfl⟩ | ⟨hold, -⟩
  · exact ⟨{}, Ledger.shows_resultDocument ix block hr, .inl rfl⟩
  · refine ⟨_, ?_, .inr (.inl ⟨info, hi, rfl⟩)⟩
    rw [Mutation.applyAll_append]
    refine Ledger.Shows.typing ?_ name
    refine (ix.heldTx block id info).shows_mutations ?_ h
    change (ix.correlator.absoluteFee info (block.pool.refundsOf id)).denomination = d
    rw [ix.correlator.absoluteFee_eq]
    exact hd
  · refine ⟨_, ?_, .inr (.inr (.inl rfl))⟩
    rw [Mutation.applyAll_append, hd]
    exact Ledger.Shows.typing ((ix.foreignUpdate block id).shows_mutations h) name
  · rw [hold] at h
    exact ⟨l, h, .inr (.inr (.inr rfl))⟩

/-- What is stored of a transaction shows a ledger that the blocks account for. -/
theorem Reached.accounted (h : Reached d blocks s) (hn : name ∈ Index.records)
    (hdoc : s.get? name id = some doc) : ∃ l : Ledger, l.Shows d doc ∧ Accounted blocks id l := by
  induction h generalizing doc with
  | start n => cases hdoc
  | @save blocks s ix block report hs hd hb _ ih =>
    rw [ix.get?_saved_records block hs.usable hb hn] at hdoc
    have hstored : ∃ l : Ledger, l.Shows d ((s.get? name id).getD .empty) ∧ Accounted blocks id l := by
      cases hg : s.get? name id with
      | none => exact ⟨{}, Ledger.shows_empty, Accounted.empty⟩
      | some old => exact ih hg
    obtain ⟨l, hshows, hacc⟩ := hstored
    obtain ⟨l', hshows', hl'⟩ := ix.exists_shows_recordAfter block hd hshows hdoc
    refine ⟨l', hshows', ?_⟩
    rcases hl' with rfl | ⟨info, hi, rfl⟩ | rfl | rfl
    · exact Accounted.empty
    · exact hacc.charged hshows.sorted hb ix.correlator hi
    · exact hacc.credited hb
    · exact hacc.mono block

/-- So does the document that a block finds of the transaction, if only an empty one. -/
theorem Reached.accounted_getD (h : Reached d blocks s) (hn : name ∈ Index.records) (id : String) :
    ∃ l : Ledger, l.Shows d ((s.get? name id).getD .empty) ∧ Accounted blocks id l := by
  cases hg : s.get? name id with
  | none => exact ⟨{}, Ledger.shows_empty, Accounted.empty⟩
  | some doc => exact h.accounted hn hg

/-- A transaction held by the block keeps or gains a field that the block does not treat apart. -/
theorem Indexer.get?_held (ix : Indexer) (block : Block) (info : TxInfo) (name : String) (doc : Value)
    {key : String} (hfee : key ∉ Fee.fields) (hstatus : key ∉ StatusInfo.fieldNames) (htype : key ≠ "type") :
    (Mutation.applyAll ((ix.heldTx block id info).mutations ++ Indexer.typing name) doc).get? key =
      if (ix.heldTx block id info).status.signal?.isSome then
        ((ix.heldTx block id info).record.toJson.toValue.get? key).or (doc.get? key)
      else (doc.get? key).or ((ix.heldTx block id info).record.toJson.toValue.get? key) := by
  rw [Mutation.applyAll_append, Indexer.get?_typing, if_neg fun h => htype h.2.symm]
  exact (ix.heldTx block id info).get?_mutations doc hfee hstatus

def typeOf (name : String) : Option Value := if name = Index.operations then some (.str "normal") else none

/-- A block leaves or gives that type. -/
theorem Indexer.get?_type_recordAfter (ix : Indexer) (block : Block) {stored : Option Value}
    (hr : name = Index.operations → block.pool.scResults.find? id = none)
    (hold : ∀ old, stored = some old → old.get? "type" = typeOf name)
    (hdoc : ix.recordAfter block name id stored = some doc) : doc.get? "type" = typeOf name := by
  have hfee : "type" ∉ Fee.fields := by decide
  have hstatus : "type" ∉ StatusInfo.fieldNames := by decide
  have hstored : name ≠ Index.operations → (stored.getD .empty).get? "type" = none := by
    intro ho
    cases hg : stored with
    | none => rfl
    | some old => simpa [typeOf, ho] using hold old hg
  rcases ix.recordAfter_cases block hdoc with
    ⟨result, info, ho, hi, -, -⟩ | ⟨info, hi, rfl⟩ | ⟨-, rfl⟩ | ⟨hg, -⟩
  · rw [hr ho] at hi
    cases hi
  · rw [Mutation.applyAll_append, Indexer.get?_typing]
    by_cases ho : name = Index.operations
    · simp [typeOf, ho]
    · have hrecord : (ix.heldTx block id info).record.toJson.toValue.get? "type" = none :=
        (ix.heldTx block id info).record.get?_toValue_of_mem List.mem_cons_self
      simp [typeOf, ho, (ix.heldTx block id info).get?_mutations _ hfee hstatus, hrecord, hstored ho]
  · rw [Mutation.applyAll_append, Indexer.get?_typing]
    by_cases ho : name = Index.operations
    · simp [typeOf, ho]
    · have hmark : Rollback.hasScResults ≠ "type" := by decide
      simp [typeOf, ho, (ix.foreignUpdate block id).get?_mutations _ _ hfee hstatus, hmark, hstored ho]
  · exact hold doc hg

/-- Operations that are no results are of the type `normal`; no transaction has a type. -/
theorem Reached.get?_type (h : Reached d blocks s) (hn : name ∈ Index.records)
    (hr : name = Index.operations → ∀ block ∈ blocks, block.pool.scResults.find? id = none)
    (hdoc : s.get? name id = some doc) : doc.get? "type" = typeOf name := by
  induction h generalizing doc with
  | start n => cases hdoc
  | @save blocks s ix block report hs hd hb _ ih =>
    rw [ix.get?_saved_records block hs.usable hb hn] at hdoc
    refine ix.get?_type_recordAfter block (fun ho => hr ho block List.mem_cons_self) (fun old => ?_) hdoc
    exact ih fun ho b hm => hr ho b (List.mem_cons_of_mem _ hm)

/-- The document of a result has no mark; another is marked if the block has results of it, or was so. -/
theorem Indexer.get?_hasScResults (ix : Indexer) (block : Block) {stored : Option Value}
    (hold : (stored.getD .empty).get? Rollback.hasScResults = none ∨
      (stored.getD .empty).get? Rollback.hasScResults = some (.bool true))
    (hdoc : ix.recordAfter block name id stored = some doc) :
    (name = Index.operations ∧ (block.pool.scResults.find? id).isSome = true ∧
      doc.get? Rollback.hasScResults = none) ∨
    doc.get? Rollback.hasScResults =
      if id ∈ block.pool.origins then some (.bool true)
      else (stored.getD .empty).get? Rollback.hasScResults := by
  have hfee : Rollback.hasScResults ∉ Fee.fields := by decide
  have hstatus : Rollback.hasScResults ∉ StatusInfo.fieldNames := by decide
  have htype : Rollback.hasScResults ≠ "type" := by decide
  rcases ix.recordAfter_cases block hdoc with
    ⟨result, info, hn, hi, hr, rfl⟩ | ⟨info, hi, rfl⟩ | ⟨-, rfl⟩ | ⟨rfl, hout⟩
  · refine .inl ⟨hn, by rw [hi]; rfl, ?_⟩
    obtain ⟨info, -, rfl⟩ := Option.map_eq_some_iff.1 hr
    rw [Value.get?_set, if_neg (Ne.symm htype)]
    exact ScResultRecord.get?_toValue_eq_none _ (by decide)
  · right
    have hmark : (ix.heldTx block id info).record.hasScResults = block.pool.origins.contains id := rfl
    rw [ix.get?_held block info name _ hfee hstatus htype, TransactionRecord.get?_toValue_hasScResults, hmark]
    by_cases ho : id ∈ block.pool.origins
    · rcases hold with hold | hold <;> simp [ho, hold]
    · simp [ho]
  · right
    rw [Mutation.applyAll_append, Indexer.get?_typing, if_neg fun h => htype h.2.symm,
      (ix.foreignUpdate block id).get?_mutations _ _ hfee hstatus]
    simp [Indexer.foreignUpdate]
  · right
    rw [if_neg hout]
    rfl

/-- The mark of results is set or absent. -/
theorem Reached.get?_hasScResults (h : Reached d blocks s) (hn : name ∈ Index.records) (id : String) :
    ((s.get? name id).getD .empty).get? Rollback.hasScResults = none ∨
      ((s.get? name id).getD .empty).get? Rollback.hasScResults = some (.bool true) := by
  induction h with
  | start n => exact .inl rfl
  | @save blocks s ix block report hs hd hb _ ih =>
    rw [ix.get?_saved_records block hs.usable hb hn]
    cases hdoc : ix.recordAfter block name id (s.get? name id) with
    | none => exact .inl rfl
    | some doc =>
      rcases ix.get?_hasScResults block ih hdoc with ⟨-, -, hnone⟩ | hmark
      · exact .inl hnone
      · rw [Option.getD_some, hmark]
        split
        · exact .inr rfl
        · exact ih

/-- Transactions with results in the blocks are marked. -/
theorem Reached.marked (h : Reached d blocks s) (hn : name ∈ Index.records)
    (hr : name = Index.operations → ∀ block ∈ blocks, block.pool.scResults.find? id = none)
    (hm : block ∈ blocks) (ho : id ∈ block.pool.origins) :
    ∃ doc, s.get? name id = some doc ∧ doc.get? Rollback.hasScResults = some (.bool true) := by
  induction h with
  | start n => cases hm
  | @save blocks s ix last report hs hd hb _ ih =>
    rw [ix.get?_saved_records last hs.usable hb hn]
    have hold : id ∈ last.pool.origins ∨
        ∃ doc, s.get? name id = some doc ∧ doc.get? Rollback.hasScResults = some (.bool true) := by
      rcases List.mem_cons.1 hm with rfl | hm
      · exact .inl ho
      · exact .inr (ih (fun hop b hb => hr hop b (List.mem_cons_of_mem _ hb)) hm)
    cases hdoc : ix.recordAfter last name id (s.get? name id) with
    | none =>
      obtain ⟨hg, hout⟩ := ix.recordAfter_eq_none last hdoc
      rcases hold with hin | ⟨doc, hd, -⟩
      · exact absurd hin hout
      · rw [hg] at hd
        cases hd
    | some doc =>
      refine ⟨doc, rfl, ?_⟩
      rcases ix.get?_hasScResults last (hs.get?_hasScResults hn id) hdoc with ⟨hop, hsome, -⟩ | hmark
      · rw [hr hop last List.mem_cons_self] at hsome
        cases hsome
      · rw [hmark]
        rcases hold with hin | ⟨old, hd, hdm⟩
        · exact if_pos hin
        · rw [hd, Option.getD_some, hdm, ite_self]

/-- Every stored result comes from a block, and names the transaction that it has there. -/
theorem Reached.result (h : Reached d blocks s) (hdoc : s.get? Index.scResults id = some doc) :
    ∃ block ∈ blocks, ∃ info, block.pool.scResults.find? id = some info ∧
      Rollback.originOf (some doc) = some info.result.originHash := by
  induction h with
  | start n => cases hdoc
  | @save blocks s ix block report hs hd hb _ ih =>
    rw [ix.get?_saved_scResults block hs.usable hb, Option.or_eq_some_iff] at hdoc
    rcases hdoc with hdoc | ⟨-, hdoc⟩
    · cases hi : block.pool.scResults.find? id with
      | none =>
        rw [(ix.resultDocument_eq_none_iff block).2 hi] at hdoc
        cases hdoc
      | some info =>
        have horigin := Rollback.originOf_resultDocument ix block hi
        rw [hdoc] at horigin
        exact ⟨block, List.mem_cons_self, info, hi, horigin⟩
    · obtain ⟨b, hm, hb⟩ := ih hdoc
      exact ⟨b, List.mem_cons_of_mem _ hm, hb⟩

/-- No result of the blocks is missing. -/
theorem Reached.isSome_result (h : Reached d blocks s) (hm : block ∈ blocks) {info : ScResultInfo}
    (hi : block.pool.scResults.find? id = some info) : (s.get? Index.scResults id).isSome = true := by
  induction h with
  | start n => cases hm
  | @save blocks s ix last report hs hd hb _ ih =>
    rw [ix.get?_saved_scResults last hs.usable hb, Option.isSome_or]
    rcases List.mem_cons.1 hm with rfl | hm
    · obtain ⟨result, hresult, -⟩ := ix.get?_resultDocument block hi
      simp [hresult]
    · simp [ih hm]

end ChainIndex
