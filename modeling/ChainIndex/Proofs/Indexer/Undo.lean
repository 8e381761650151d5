import ChainIndex.Proofs.Indexer.Reindex

/-!
A block of results only, saved and reverted at once. Nothing is left of it, and of the transactions
that its results belong to nothing is lost but bare placeholders, and the mark where no stored result
names the transaction.
-/
namespace ChainIndex

variable {d : Denomination} {blocks : List Block} {block : Block} {s : Store} {name id : String}
  {l : Ledger} {doc : Value} {stored : Option Value}

namespace Rollback

def named (s : Store) (id : String) : Bool := others [] s id

def unmark (named : Bool) : List Mutation := if named then [] else [.unset hasScResults]

/-- What results that came and went leave of a transaction: no mark without a stored result that names
it, and no document without a field beside those of placeholders. -/
def settled (named : Bool) (stored : Option Value) : Option Value := unwound (unmark named) stored

theorem isRecord_unmark (h : doc.IsRecord) (named : Bool) :
    (Mutation.applyAll (unmark named) doc).IsRecord := by
  cases named with
  | true => exact h
  | false => exact h.eraseKey hasScResults

theorem get?_unmark (named : Bool) (doc : Value) (key : String) :
    (Mutation.applyAll (unmark named) doc).get? key =
      if named = false ∧ hasScResults = key then none else doc.get? key := by
  cases named with
  | true => simp [unmark]
  | false =>
    refine (Value.get?_eraseKey doc hasScResults key).trans ?_
    simp

/-- Bare placeholders go. -/
theorem settled_of_isBarePlaceholder (h : doc.IsRecord) (hbare : isBarePlaceholder doc = true)
    (named : Bool) : settled named (some doc) = none := by
  have hnone : ∀ key, key ∉ placeholderFields → doc.get? key = none := fun _ =>
    get?_of_isBarePlaceholder hbare
  have hfee : doc.get? Fee.feeField = none := hnone _ (by decide)
  have hleft : isBarePlaceholder (Mutation.applyAll (unmark named) doc) = true := by
    refine isBarePlaceholder_of_get? (isRecord_unmark h named) fun key hk => ?_
    rw [get?_unmark, hnone key hk, ite_self]
  simp [settled, unwound, hfee, hleft]

end Rollback

namespace ForeignUpdate

variable (u : ForeignUpdate)

/-- Taking back what the block added leaves the ledger, and all fields but the mark and the type. -/
theorem get?_unwindMutations_addTo (name : String) (hu : u.hasScResults = true) (hsignal : u.signal = none)
    (h : l.Shows d doc) {ids : List String} (hledger : (l.credited d u.refunds).withdrawn d ids = l)
    (others : Bool) (key : String) :
    (Mutation.applyAll (Rollback.unwindMutations d ids others) (u.addTo d name doc)).get? key =
      if Rollback.hasScResults = key then if others then some (.bool true) else none
      else if name = Index.operations ∧ "type" = key then some (.str "normal")
      else doc.get? key := by
  have hleft := Rollback.shows_unwindMutations ids others (u.shows_addTo name h)
  rw [hledger] at hleft
  by_cases hfee : key ∈ Fee.fields
  · have hmark : Rollback.hasScResults ≠ key := by
      rintro rfl
      exact absurd hfee (by decide)
    have htype : "type" ≠ key := by
      rintro rfl
      exact absurd hfee (by decide)
    rw [h.get?_eq hleft hfee, if_neg hmark, if_neg fun ht => htype ht.2]
  rw [Rollback.get?_unwindMutations d ids others _ hfee]
  by_cases hstatus : key ∈ StatusInfo.fieldNames
  · have hmark : Rollback.hasScResults ≠ key := by
      rintro rfl
      exact absurd hstatus (by decide)
    have htype : "type" ≠ key := by
      rintro rfl
      exact absurd hstatus (by decide)
    rw [if_neg fun hm => hmark hm.2, if_neg hmark, if_neg fun ht => htype ht.2,
      u.get?_addTo_status d name doc hstatus, hsignal]
  · rw [u.get?_addTo d name doc hfee hstatus]
    by_cases hmark : Rollback.hasScResults = key
    · subst hmark
      have htype : "type" ≠ Rollback.hasScResults := by decide
      cases others <;> simp [hu, htype]
    · simp [hmark]

/-- Of a stored document nothing changes but the mark. -/
theorem unwindMutations_addTo (hu : u.hasScResults = true) (hsignal : u.signal = none) (h : l.Shows d doc)
    {ids : List String} (hledger : (l.credited d u.refunds).withdrawn d ids = l) {others : Bool}
    (htype : doc.get? "type" = typeOf name)
    (hmark : others = true → doc.get? Rollback.hasScResults = some (.bool true)) :
    Mutation.applyAll (Rollback.unwindMutations d ids others) (u.addTo d name doc) =
      Mutation.applyAll (Rollback.unmark others) doc := by
  have hleft := Rollback.shows_unwindMutations ids others (u.shows_addTo name h)
  refine hleft.record.ext (Rollback.isRecord_unmark h.record others) fun key => ?_
  rw [u.get?_unwindMutations_addTo name hu hsignal h hledger others, Rollback.get?_unmark]
  by_cases hk : Rollback.hasScResults = key
  · subst hk
    cases others with
    | true => simpa using (hmark rfl).symm
    | false => simp
  · by_cases ht : name = Index.operations ∧ "type" = key
    · obtain ⟨hn, rfl⟩ := ht
      simp [hk, hn, htype, typeOf]
    · simp [hk, ht]

/-- Where nothing was stored, only the type can be left. -/
theorem isBarePlaceholder_unwindMutations_addTo (name : String) (hu : u.hasScResults = true)
    (hsignal : u.signal = none) (h : l.Shows d .empty) {ids : List String}
    (hledger : (l.credited d u.refunds).withdrawn d ids = l) (others : Bool) :
    Rollback.isBarePlaceholder
      (Mutation.applyAll (Rollback.unwindMutations d ids others) (u.addTo d name .empty)) = true := by
  have hleft := Rollback.shows_unwindMutations ids others (u.shows_addTo name h)
  refine Rollback.isBarePlaceholder_of_get? hleft.record fun key hk => ?_
  simp only [Rollback.placeholderFields, List.mem_cons, List.not_mem_nil, or_false, not_or] at hk
  rw [u.get?_unwindMutations_addTo name hu hsignal h hledger others, if_neg fun he => hk.1 he.symm,
    if_neg fun he => hk.2 he.2.symm]
  rfl

/-- What the block added and the revert took back leaves the document settled. -/
theorem unwound_addTo (hu : u.hasScResults = true) (hsignal : u.signal = none)
    (h : l.Shows d (stored.getD .empty)) {ids : List String}
    (hledger : (l.credited d u.refunds).withdrawn d ids = l) {others : Bool}
    (htype : ∀ doc, stored = some doc → doc.get? "type" = typeOf name)
    (hmark : others = true → ∃ doc, stored = some doc ∧ doc.get? Rollback.hasScResults = some (.bool true)) :
    Rollback.unwound (Rollback.unwindMutations d ids others) (some (u.addTo d name (stored.getD .empty))) =
      Rollback.settled others stored := by
  have hfee : ((u.addTo d name (stored.getD .empty)).get? Fee.feeField).isSome =
      ((stored.getD .empty).get? Fee.feeField).isSome := by
    rw [(u.shows_addTo name h).fee, h.fee, Option.isSome_map, Option.isSome_map, Ledger.isSome_charge_credited]
  cases stored with
  | none =>
    have hbare := u.isBarePlaceholder_unwindMutations_addTo name hu hsignal h hledger others
    rw [Option.getD_none] at hfee
    simp [Rollback.unwound, Rollback.settled, hfee, hbare]
  | some doc =>
    rw [Option.getD_some] at h hfee
    have hsame := u.unwindMutations_addTo hu hsignal h hledger (htype doc rfl) fun ho => by
      obtain ⟨known, hknown, hmark⟩ := hmark ho
      exact Option.some.inj hknown ▸ hmark
    simp [Rollback.unwound, Rollback.settled, hfee, hsame]

/-- Without refunds and without a signal a block leaves a bare placeholder where nothing was stored. -/
theorem isBarePlaceholder_addTo (name : String) (d : Denomination) (hr : u.refunds = [])
    (hs : u.signal = none) : Rollback.isBarePlaceholder (u.addTo d name .empty) = true := by
  have hshows := u.shows_addTo name (Ledger.shows_empty (d := d))
  rw [hr] at hshows
  refine Rollback.isBarePlaceholder_of_get? hshows.record fun key hk => ?_
  by_cases hfee : key ∈ Fee.fields
  · exact Ledger.shows_empty.get?_eq hshows hfee
  by_cases hstatus : key ∈ StatusInfo.fieldNames
  · rw [u.get?_addTo_status d name .empty hstatus, hs]
    rfl
  · simp only [Rollback.placeholderFields, List.mem_cons, List.not_mem_nil, or_false, not_or] at hk
    rw [u.get?_addTo d name .empty hfee hstatus, if_neg fun he => hk.2 he.2.symm,
      if_neg fun he => hk.1 he.2.symm]
    rfl

end ForeignUpdate

/-- A block of results and nothing else, all of which the body lists. -/
structure Block.ResultsOnly (block : Block) : Prop where
  transactions : block.pool.transactions = []
  logs : block.pool.logs = []
  listed : ∀ hash, block.pool.scResults.has hash = true → hash ∈ block.body.txHashes

theorem Block.ResultsOnly.lists (h : block.ResultsOnly) : block.Lists :=
  ⟨fun hash hf => by simp [h.transactions, Dict.has] at hf, h.listed⟩

/-- No result has results of its own, and what was paid for a transaction covers its refunds, one for
each result. -/
structure Regular (blocks : List Block) : Prop where
  apart : ∀ block ∈ blocks, ∀ other ∈ blocks, ∀ id ∈ other.pool.origins, block.pool.scResults.find? id = none
  covered : ∀ block ∈ blocks, ∀ id info, block.pool.transactions.find? id = some info →
    ∀ refunds : Dict Refund, refunds.Sorted →
      (∀ hash refund, refunds.find? hash = some refund → ∃ other ∈ blocks, other.Refunds hash id refund) →
      Fee.feeOf refunds ≤ info.paid.1.units ∧ Fee.gasOf refunds ≤ info.paid.2.toNat

/-- Nothing is stored under the hashes of the body. -/
def Block.Unstored (block : Block) (s : Store) : Prop :=
  ∀ name ∈ [Index.transactions, Index.operations, Index.scResults], ∀ id ∈ block.body.txHashes,
    s.get? name id = none

/-- Stored refunds are covered by what was paid, those of one block more included. -/
theorem Accounted.covered (h : Accounted blocks id l) (hs : l.refunds.Sorted)
    (hr : Regular (block :: blocks)) (hb : block.Ordered) :
    l.charge = none ∨ ∃ paid, l.Balanced paid ∧ (l.credited d (block.pool.refundsOf id)).Covered paid := by
  refine h.charge.imp (fun hnone => hnone) ?_
  rintro ⟨holder, hm, info, hi, hbal⟩
  have hsorted := Ledger.sorted_credited (d := d) hs (block.pool.refundsOf id)
  have hcovered := hr.covered holder (List.mem_cons_of_mem _ hm) id info hi _ hsorted
  exact ⟨info.paid, hbal, hcovered (h.credited hb).refunds⟩

/-- A transaction that a stored result names is marked. -/
theorem Reached.marked_of_named (h : Reached d blocks s) (hn : name ∈ Index.records)
    (hapart : ∀ block ∈ blocks, block.pool.scResults.find? id = none) (hnamed : Rollback.named s id = true) :
    ∃ doc, s.get? name id = some doc ∧ doc.get? Rollback.hasScResults = some (.bool true) := by
  obtain ⟨hash, -, hstored⟩ := (Rollback.others_eq_true_iff h.usable).1 hnamed
  cases hdoc : s.get? Index.scResults hash with
  | none =>
    rw [hdoc] at hstored
    cases hstored
  | some doc =>
    obtain ⟨block, hm, info, hi, hname⟩ := h.result hdoc
    rw [← hdoc, hstored, Option.some.injEq] at hname
    exact h.marked hn (fun _ => hapart) hm (List.mem_map.2 ⟨_, Dict.mem_of_find? hi, hname.symm⟩)

namespace Indexer

variable (ix : Indexer)

theorem signals_of_no_logs (h : block.pool.logs = []) : ix.signals block = [] := by
  unfold signals accumulate Registry.processLogs Registry.answers
  rw [h]
  rfl

/-- Results of the block were not stored before, so they are gone again. -/
theorem get?_reverted_scResults (h : s.Usable) (hb : block.Ordered) (hl : block.Lists) (hu : block.Unstored s)
    (id : String) :
    (ix.reverted block.header block.body (ix.saved block s)).get? Index.scResults id =
      s.get? Index.scResults id := by
  have hremains := ix.remains_saved block h
  rw [hremains.scResults, ix.get?_saved_scResults block h hb]
  by_cases hid : id ∈ block.body.txHashes
  · rw [if_pos hid, hu _ (by decide) id hid]
  · rw [if_neg hid, (ix.resultDocument_eq_none_iff block).2 (hl.find?_scResults hid), Option.none_or]

/-- The other results of a transaction are those of the store before. -/
theorem others_saved (h : s.Usable) (hb : block.Ordered) (hl : block.Lists) (hu : block.Unstored s)
    (id : String) :
    Rollback.others block.body.txHashes (ix.saved block s) id = Rollback.named s id := by
  rw [Bool.eq_iff_iff, Rollback.named, Rollback.others_eq_true_iff (ix.usable_saved block h),
    Rollback.others_eq_true_iff h]
  have hsame : ∀ hash, hash ∉ block.body.txHashes →
      (ix.saved block s).get? Index.scResults hash = s.get? Index.scResults hash := fun hash hout => by
    rw [ix.get?_saved_scResults block h hb, (ix.resultDocument_eq_none_iff block).2 (hl.find?_scResults hout),
      Option.none_or]
  constructor
  · rintro ⟨hash, hout, horigin⟩
    exact ⟨hash, List.not_mem_nil, hsame hash hout ▸ horigin⟩
  · rintro ⟨hash, -, horigin⟩
    have hout : hash ∉ block.body.txHashes := by
      intro hm
      rw [hu _ (by decide) hash hm] at horigin
      cases horigin
    exact ⟨hash, hout, (hsame hash hout).symm ▸ horigin⟩

/-- A block leaves alone what it neither names nor says anything of. -/
theorem get?_saved_of_unnamed (h : s.Usable) (hb : block.Ordered)
    (ht : block.pool.transactions.find? id = none) (hr : block.pool.scResults.find? id = none)
    (ho : id ∉ block.pool.origins) (hs : (ix.signals block).has id = false)
    (hn : name ∈ [Index.transactions, Index.operations, Index.scResults]) :
    (ix.saved block s).get? name id = s.get? name id := by
  have hrecords : ∀ name ∈ Index.records, (ix.saved block s).get? name id = s.get? name id := by
    intro name hn
    rw [ix.get?_saved_records block h hb hn, ix.recordAfter_of_foreign block ht hr]
    simp [ho, hs]
  simp only [List.mem_cons, List.not_mem_nil, or_false] at hn
  rcases hn with rfl | rfl | rfl
  · exact hrecords _ (by decide)
  · exact hrecords _ (by decide)
  · rw [ix.get?_saved_scResults block h hb, (ix.resultDocument_eq_none_iff block).2 hr, Option.none_or]

section Reverted

variable (h : Reached d blocks s) (hb : block.Ordered) (ho : block.ResultsOnly) (hu : block.Unstored s)
include h hb ho hu

/-- The stored results that the revert takes are those of the pool. -/
theorem mem_resultsOf_new {hash : String} :
    hash ∈ Rollback.resultsOf block.body.txHashes (ix.saved block s) id ↔
      ∃ info, block.pool.scResults.find? hash = some info ∧ info.result.originHash = id :=
  mem_resultsOf_saved h.usable hb ho.lists fun hash hm => by rw [hu _ (by decide) hash hm]

/-- Results of the block are new, so none of their refunds was in the ledger, and the ledger is as
before once they are taken back. -/
theorem withdrawn_new (hr : Regular (block :: blocks)) (hl : l.refunds.Sorted)
    (hacc : Accounted blocks id l) :
    (l.credited d (block.pool.refundsOf id)).withdrawn d
      (Rollback.resultsOf block.body.txHashes (ix.saved block s) id) = l := by
  refine Ledger.withdrawn_credited hl (fun hash hm => ?_) (fun hash refund hf => ?_) (hacc.covered hl hr hb)
  · cases hf : l.refunds.find? hash with
    | none => rfl
    | some refund =>
      obtain ⟨holder, hin, info, hi, -⟩ := hacc.refunds hash refund hf
      have hstored := h.isSome_result hin hi
      rw [hu _ (by decide) hash (Rollback.mem_resultsOf.1 hm).1] at hstored
      cases hstored
  · obtain ⟨info, hi, hnames, -⟩ := (Pool.find?_refundsOf_eq_some_iff hb.scResults).1 hf
    exact (ix.mem_resultsOf_new h hb ho hu).2 ⟨info, hi, hnames⟩

/-- Every transaction is settled that a result of the block belongs to. -/
theorem get?_reverted_records (hd : ix.denomination = d) (hr : Regular (block :: blocks))
    (hn : name ∈ Index.records) (id : String) :
    (ix.reverted block.header block.body (ix.saved block s)).get? name id =
      if id ∈ block.pool.origins then Rollback.settled (Rollback.named s id) (s.get? name id)
      else s.get? name id := by
  have hl := ho.lists
  have hlogs := ix.signals_of_no_logs ho.logs
  have hremains := ix.remains_saved block h.usable
  rw [hremains.records name hn]
  by_cases hid : id ∈ block.body.txHashes
  · rw [if_pos hid, hu name (Index.mem_of_mem_records hn) id hid]
    exact (ite_self none).symm
  rw [if_neg hid, Rollback.unwoundAt, Rollback.find?_parents, ix.get?_saved_records block h.usable hb hn,
    ix.recordAfter_of_foreign block (hl.find?_transactions hid) (hl.find?_scResults hid), hlogs,
    ix.others_saved h.usable hb hl hu]
  by_cases horigin : id ∈ block.pool.origins
  · obtain ⟨hash, info, hi, hnames⟩ := (mem_origins_iff hb).1 horigin
    have hne : Rollback.resultsOf block.body.txHashes (ix.saved block s) id ≠ [] :=
      List.ne_nil_of_mem ((ix.mem_resultsOf_new h hb ho hu).2 ⟨info, hi, hnames⟩)
    have hapart : ∀ other ∈ blocks, other.pool.scResults.find? id = none := fun other hm =>
      hr.apart other (List.mem_cons_of_mem _ hm) block List.mem_cons_self id horigin
    obtain ⟨l, hshows, hacc⟩ := h.accounted_getD hn id
    have hunwound := (ix.foreignUpdate block id).unwound_addTo (by simp [foreignUpdate, horigin])
      (by simp [foreignUpdate, hlogs]) hshows (ix.withdrawn_new h hb ho hu hr hshows.sorted hacc)
      (fun _ hdoc => h.get?_type hn (fun _ => hapart) hdoc) (h.marked_of_named hn hapart)
    simp only [hid, hne, or_self, ↓reduceIte, horigin, true_or, hd]
    exact hunwound
  · have hnone : Rollback.resultsOf block.body.txHashes (ix.saved block s) id = [] := by
      refine List.eq_nil_iff_forall_not_mem.2 fun hash hm => horigin ?_
      obtain ⟨info, hi, hnames⟩ := (ix.mem_resultsOf_new h hb ho hu).1 hm
      exact (mem_origins_iff hb).2 ⟨hash, info, hi, hnames⟩
    simp [hnone, horigin, Dict.has]

/-- A bare placeholder of a transaction that a result of the block belongs to is removed. -/
theorem get?_revertBlock_of_isBarePlaceholder (hd : ix.denomination = d) (hr : Regular (block :: blocks))
    (hn : name ∈ Index.records) (hid : id ∈ block.pool.origins) (hdoc : s.get? name id = some doc)
    (hbare : Rollback.isBarePlaceholder doc = true) :
    let saved := ix.saveBlock block s
    let reverted := saved.2.1.revertBlock block.header block.body saved.2.2
    reverted.2.2.get? name id = none := by
  obtain ⟨l, hshows, -⟩ := h.accounted hn hdoc
  have hstore := ((ix.alike_saveBlock block s).revertBlock_eq block.header block.body (ix.saved block s)).2
  refine (congrArg (·.get? name id) hstore).trans ?_
  refine (ix.get?_reverted_records h hb ho hu hd hr hn id).trans ?_
  rw [if_pos hid, hdoc, Rollback.settled_of_isBarePlaceholder hshows.record hbare]

end Reverted

/-- A block of results only, saved and reverted, leaves all results and all transactions as they were,
but for the transactions that its results belong to: a bare placeholder of one is gone, and its mark is
gone where no stored result names it. -/
theorem revert_settles {ix : Indexer} (h : Reached d blocks s) (hd : ix.denomination = d) (hb : block.Ordered)
    (ho : block.ResultsOnly) (hu : block.Unstored s) (hr : Regular (block :: blocks)) :
    let saved := ix.saveBlock block s
    let reverted := saved.2.1.revertBlock block.header block.body saved.2.2
    (∃ report, saved.1 = .ok report) ∧ reverted.1 = .ok () ∧
      (∀ id, reverted.2.2.get? Index.scResults id = s.get? Index.scResults id) ∧
      ∀ name ∈ Index.records, ∀ id, reverted.2.2.get? name id =
        if id ∈ block.pool.origins then Rollback.settled (Rollback.named s id) (s.get? name id)
        else s.get? name id := by
  intro saved reverted
  obtain ⟨hreport, husable, -⟩ := ix.saveBlock_spec block h.usable
  obtain ⟨hok, -⟩ := ix.revertBlock_spec block.header block.body husable
  obtain ⟨hreverted, hstore⟩ := (ix.alike_saveBlock block s).revertBlock_eq block.header block.body
    (ix.saved block s)
  have hstore : reverted.2.2 = ix.reverted block.header block.body (ix.saved block s) := hstore
  refine ⟨hreport, hreverted.trans hok, fun id => ?_, fun name hn id => ?_⟩
  · rw [hstore, ix.get?_reverted_scResults h.usable hb ho.lists hu]
  · rw [hstore, ix.get?_reverted_records h hb ho hu hd hr hn]

/-- Two blocks have a result of one transaction, and no block holds it. Reverting the second removes the
placeholder that the first wrote. -/
theorem revert_removes_placeholder :
    let ix : Indexer := {}
    let result : ScResultInfo := { result := { originTxHash := [0xaa] } }
    let first : Block :=
      { header := { hash := [1] }, body := ⟨[{ hash := [0x5b], kind := .scResults, txHashes := [[0xb1]] }]⟩
        pool := { scResults := [("b1", result)] } }
    let second : Block :=
      { header := { hash := [2] }, body := ⟨[{ hash := [0x5c], kind := .scResults, txHashes := [[0xb2]] }]⟩
        pool := { scResults := [("b2", result)] } }
    let s := ix.saved first (Store.withPageSize 10)
    let saved := ix.saveBlock second s
    let reverted := saved.2.1.revertBlock second.header second.body saved.2.2
    Reached ix.denomination [first] s ∧ second.Ordered ∧ second.ResultsOnly ∧ second.Unstored s ∧
      Regular [second, first] ∧ ∀ name ∈ Index.records,
        (s.get? name "aa").isSome = true ∧ reverted.2.2.get? name "aa" = none := by
  intro ix result first second s
  have hfirst : first.Ordered := ⟨by simp [first, Dict.Sorted], by simp [first, Dict.Sorted]⟩
  have hsecond : second.Ordered := ⟨by simp [second, Dict.Sorted], by simp [second, Dict.Sorted]⟩
  have hhash : second.body.txHashes = ["b2"] := by decide
  have hresults : second.ResultsOnly := ⟨rfl, rfl, fun hash hf => hhash ▸ Dict.has_iff.1 hf⟩
  obtain ⟨⟨report, hreport⟩, -, -⟩ := ix.saveBlock_spec first (Store.usable_withPageSize 10)
  have hreached : Reached ix.denomination [first] s := .save ix (.start 10) rfl hfirst hreport
  have hunstored : second.Unstored s := by
    intro name hn id hid
    obtain rfl := List.mem_singleton.1 (hhash ▸ hid)
    exact ix.get?_saved_of_unnamed (Store.usable_withPageSize 10) hfirst rfl (by decide) (by decide)
      (by decide) hn
  have hregular : Regular [second, first] := by
    refine ⟨by decide, fun block hm id held hi => ?_⟩
    simp only [List.mem_cons, List.not_mem_nil, or_false] at hm
    rcases hm with rfl | rfl <;> cases hi
  refine ⟨hreached, hsecond, hresults, hunstored, hregular, fun name hn => ?_⟩
  have hplaceholder : s.get? name "aa" =
      some ((ix.foreignUpdate first "aa").addTo ix.denomination name .empty) := by
    have horigin : "aa" ∈ first.pool.origins := by decide
    refine (ix.get?_saved_records first (Store.usable_withPageSize 10) hfirst hn "aa").trans ?_
    rw [ix.recordAfter_of_foreign first rfl (by decide), if_pos (.inl horigin)]
    rfl
  have hbare := (ix.foreignUpdate first "aa").isBarePlaceholder_addTo name ix.denomination rfl rfl
  have hgone := ix.get?_revertBlock_of_isBarePlaceholder hreached hsecond hresults hunstored rfl hregular hn
    (List.mem_singleton_self _) hplaceholder hbare
  exact ⟨Option.isSome_of_eq_some hplaceholder, hgone⟩

/-- A refund of a stored transaction. -/
theorem revert_settles_refund :
    let ix : Indexer := {}
    let info : TxInfo :=
      { transaction := { gasLimit := 50000 }, feeInfo := { initialPaidFee := ⟨1000000, by decide⟩ } }
    let refund : ScResultInfo :=
      { result := { originTxHash := [0xaa] }, feeInfo := { fee := ⟨100000, by decide⟩, gasRefunded := 5000 } }
    let first : Block := { header := { hash := [1] }, pool := { transactions := [("aa", info)] } }
    let second : Block :=
      { header := { hash := [2] }, body := ⟨[{ hash := [0x5c], kind := .scResults, txHashes := [[0xb1]] }]⟩
        pool := { scResults := [("b1", refund)] } }
    let s := ix.saved first (Store.withPageSize 10)
    let saved := ix.saveBlock second s
    let reverted := saved.2.1.revertBlock second.header second.body saved.2.2
    Reached ix.denomination [first] s ∧ second.Ordered ∧ second.ResultsOnly ∧ second.Unstored s ∧
      Regular [second, first] ∧ reverted.1 = .ok () ∧ ∀ name ∈ Index.records, reverted.2.2.get? name "aa" =
        Rollback.settled (Rollback.named s "aa") (s.get? name "aa") := by
  intro ix info refund first second s
  have hfirst : first.Ordered := ⟨by simp [first, Dict.Sorted], by simp [first, Dict.Sorted]⟩
  have hsecond : second.Ordered := ⟨by simp [second, Dict.Sorted], by simp [second, Dict.Sorted]⟩
  have hhash : second.body.txHashes = ["b1"] := by decide
  have hresults : second.ResultsOnly := ⟨rfl, rfl, fun hash hf => hhash ▸ Dict.has_iff.1 hf⟩
  obtain ⟨⟨report, hreport⟩, -, -⟩ := ix.saveBlock_spec first (Store.usable_withPageSize 10)
  have hreached : Reached ix.denomination [first] s := .save ix (.start 10) rfl hfirst hreport
  have hunstored : second.Unstored s := by
    intro name hn id hid
    obtain rfl := List.mem_singleton.1 (hhash ▸ hid)
    exact ix.get?_saved_of_unnamed (Store.usable_withPageSize 10) hfirst rfl rfl (by decide) (by decide) hn
  have hregular : Regular [second, first] := by
    refine ⟨by decide, fun block hm id held hi refunds hs hgiven => ?_⟩
    have hone : ∀ e ∈ refunds, e = ("b1", ⟨⟨100000, by decide⟩, 5000⟩) := by
      rintro ⟨hash, given⟩ hm
      obtain ⟨other, ho, result, hf, hto⟩ := hgiven hash given (hs.find?_of_mem hm)
      simp only [List.mem_cons, List.not_mem_nil, or_false] at ho
      rcases ho with rfl | rfl
      · obtain ⟨rfl, rfl⟩ : "b1" = hash ∧ refund = result := by simpa [second, Dict.find?] using hf
        obtain ⟨-, hto⟩ := Option.ite_none_right_eq_some.1 hto
        have hrefund : refund.refund? = some ⟨⟨100000, by decide⟩, 5000⟩ := by decide
        exact Prod.ext rfl (Option.some.inj (hto.symm.trans hrefund))
      · cases hf
    have hpaid : info.paid = (⟨1000000, by decide⟩, 50000) := by decide
    obtain rfl : held = info := by
      simp only [List.mem_cons, List.not_mem_nil, or_false] at hm
      rcases hm with rfl | rfl
      · cases hi
      · exact (Option.some.inj ((Option.ite_none_right_eq_some.1 hi).2)).symm
    rw [hpaid]
    rcases hs.eq_nil_or_singleton hone with rfl | rfl <;> decide
  have hmain := revert_settles hreached rfl hsecond hresults hunstored hregular
  have horigin : "aa" ∈ second.pool.origins := by decide
  refine ⟨hreached, hsecond, hresults, hunstored, hregular, hmain.2.1, fun name hn => ?_⟩
  exact (hmain.2.2.2 name hn "aa").trans (if_pos horigin)

end Indexer
end ChainIndex
