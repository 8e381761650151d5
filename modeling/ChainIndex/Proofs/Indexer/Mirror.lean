import ChainIndex.Proofs.Indexer.Calls

/-!
The operations beside the transactions and the results. Saves write the two copies of a document by different writes,
and reverts decide for each of them on its own what becomes of it; still an operation is always the transaction, or
the result, with a type.
-/
namespace ChainIndex

open Value (AgreeOn)

variable {s : Store} {id : String} {doc other : Value} {stored : Option Value}

namespace Value

def typed (type : String) (doc : Value) : Value := doc.set "type" (.str type)

def AgreeButType (doc other : Value) : Prop := ∀ key, key ≠ "type" → other.get? key = doc.get? key

theorem get?_typed (type : String) (doc : Value) (key : String) :
    (doc.typed type).get? key = if "type" = key then some (.str type) else doc.get? key :=
  get?_set doc "type" key (.str type)

theorem agreeButType_typed (doc : Value) (type : String) : doc.AgreeButType (doc.typed type) := by
  intro key hk
  rw [get?_typed, if_neg (Ne.symm hk)]

theorem IsDocument.typed (h : doc.IsDocument) (type : String) : (doc.typed type).IsDocument :=
  h.set "type" (ordered_str type)

theorem AgreeButType.agreeOn_fee (h : AgreeButType doc other) : AgreeOn Fee.fields other doc := by
  intro key hk
  refine h key ?_
  rintro rfl
  exact absurd hk (by decide)

theorem AgreeButType.agreeOn_status (h : AgreeButType doc other) : AgreeOn StatusInfo.fieldNames other doc := by
  intro key hk
  refine h key ?_
  rintro rfl
  exact absurd hk (by decide)

/-- A document that agrees with another and has the type is the other with the type. -/
theorem AgreeButType.eq_typed (h : AgreeButType doc other) {type : String} (hd : doc.IsDocument)
    (ho : other.IsDocument) (ht : other.get? "type" = some (.str type)) : other = doc.typed type := by
  refine ho.record.ext (hd.typed type).record fun key => ?_
  rw [get?_typed]
  split
  · next he => rw [← he, ht]
  · next he => exact h key (Ne.symm he)

end Value

/-- The type is no part of what a block enters into a transaction. -/
theorem CorrelatedTx.agreeButType_enterInto (tx : CorrelatedTx) (h : doc.AgreeButType other) (name name' : String) :
    (tx.enterInto name doc).AgreeButType (tx.enterInto name' other) := by
  intro key hk
  by_cases hfee : key ∈ Fee.fields
  · have hcharged := FeeWrite.agreeOn_apply h.agreeOn_fee tx.fee
    exact ((tx.agreeOn_enterInto_fee name' other).trans hcharged).trans
      (tx.agreeOn_enterInto_fee name doc).symm key hfee
  by_cases hstatus : key ∈ StatusInfo.fieldNames
  · have hlatched := Mutation.agreeOn_latchStatus_congr tx.signals (tx.agreeOn_labelled_congr h.agreeOn_status)
    exact ((tx.agreeOn_enterInto_status name' other).trans hlatched).trans
      (tx.agreeOn_enterInto_status name doc).symm key hstatus
  · rw [tx.get?_enterInto name' other hfee hstatus, tx.get?_enterInto name doc hfee hstatus, h key hk]
    simp only [Ne.symm hk, and_false, ↓reduceIte]

theorem Mutation.agreeOn_applyAll_fee (h : AgreeOn Fee.fields doc other) (writes : List FeeWrite) :
    AgreeOn Fee.fields (applyAll (writes.map .fee) doc) (applyAll (writes.map .fee) other) := by
  induction writes generalizing doc other with
  | nil => exact h
  | cons write rest ih => exact ih (FeeWrite.agreeOn_apply h write)

/-- Nor is it of what a block adds to a transaction. -/
theorem ForeignUpdate.agreeButType_addTo (u : ForeignUpdate) (d : Denomination) (h : doc.AgreeButType other)
    (name name' : String) : (u.addTo d name doc).AgreeButType (u.addTo d name' other) := by
  intro key hk
  by_cases hfee : key ∈ Fee.fields
  · have hmarked : AgreeOn Fee.fields (u.marked other) (u.marked doc) :=
      ((u.agreeOn_marked other).trans h.agreeOn_fee).trans (u.agreeOn_marked doc).symm
    have hcredited := Mutation.agreeOn_applyAll_fee hmarked (u.refunds.map fun e => .relativeAdjust e.1 e.2 d)
    rw [List.map_map] at hcredited
    exact ((u.agreeOn_addTo_fee d name' other).trans hcredited).trans (u.agreeOn_addTo_fee d name doc).symm key hfee
  by_cases hstatus : key ∈ StatusInfo.fieldNames
  · rw [u.get?_addTo_status d name' other hstatus, u.get?_addTo_status d name doc hstatus]
    cases u.signal with
    | none => exact h.agreeOn_status key hstatus
    | some signal =>
      dsimp only
      rw [Mutation.statusOf_congr h.agreeOn_status]
      exact Mutation.get?_setStatus_of_mem _ _ _ hstatus
  · rw [u.get?_addTo d name' other hfee hstatus, u.get?_addTo d name doc hfee hstatus, h key hk]
    simp only [Ne.symm hk, and_false, ↓reduceIte]

namespace Indexer

variable (ix : Indexer) (block : Block)

/-- A block makes of an operation what it makes of the transaction, with the type. -/
theorem recordAfter_operation (hr : block.pool.scResults.find? id = none)
    (hs : ∀ doc, stored = some doc → doc.IsDocument) :
    ix.recordAfter block Index.operations id (stored.map (·.typed "normal")) =
      (ix.recordAfter block Index.transactions id stored).map (·.typed "normal") := by
  obtain ⟨before, hbefore, hdoc⟩ : ∃ before, (stored.map (·.typed "normal")).getD Value.empty = before ∧
      before.IsDocument ∧ (stored.getD .empty).AgreeButType before := by
    cases stored with
    | none => exact ⟨.empty, rfl, Value.isDocument_empty, fun _ _ => rfl⟩
    | some doc => exact ⟨_, rfl, (hs doc rfl).typed _, doc.agreeButType_typed "normal"⟩
  obtain ⟨hordered, hagree⟩ := hdoc
  have htype (doc : Value) (ms : List Mutation) :
      (Mutation.applyAll (ms ++ typing Index.operations) doc).get? "type" = some (.str "normal") := by
    rw [Mutation.applyAll_append, get?_typing, if_pos ⟨rfl, rfl⟩]
  have hstored := Value.isDocument_getD hs
  unfold recordAfter
  simp only [(ix.resultDocument_eq_none_iff block).2 hr, ite_self, hbefore]
  cases hi : block.pool.transactions.find? id with
  | some info =>
    have hentered := (ix.heldTx block id info).agreeButType_enterInto hagree Index.transactions Index.operations
    rw [ix.changes?_of_held block hi]
    exact congrArg some (hentered.eq_typed
      (Mutation.isDocument_applyAll ((ix.heldTx block id info).ordered_mutations _) hstored)
      (Mutation.isDocument_applyAll ((ix.heldTx block id info).ordered_mutations _) hordered) (htype _ _))
  | none =>
    have hadded := (ix.foreignUpdate block id).agreeButType_addTo ix.denomination hagree Index.transactions
      Index.operations
    rw [ix.changes?_of_foreign block hi]
    by_cases hnamed : id ∈ block.pool.origins ∨ (ix.signals block).has id
    · rw [if_pos hnamed]
      exact congrArg some (hadded.eq_typed
        (Mutation.isDocument_applyAll ((ix.foreignUpdate block id).ordered_mutations _ _) hstored)
        (Mutation.isDocument_applyAll ((ix.foreignUpdate block id).ordered_mutations _ _) hordered) (htype _ _))
    · rw [if_neg hnamed]

end Indexer

namespace Rollback

variable (d : Denomination) (hashes : List String)

/-- Unwinding sees nothing but the fields of the fee. -/
theorem agreeOn_unwindMutations (h : AgreeOn Fee.fields doc other) (results : List String) (others : Bool) :
    AgreeOn Fee.fields (Mutation.applyAll (unwindMutations d results others) doc)
      (Mutation.applyAll (unwindMutations d results others) other) := by
  have hfees := Mutation.agreeOn_applyAll_fee h (results.map fun id => .revertRefund id d)
  rw [List.map_map] at hfees
  unfold unwindMutations
  rw [Mutation.applyAll_append, Mutation.applyAll_append]
  cases others with
  | true => exact hfees
  | false =>
    intro key hk
    refine (Value.get?_eraseKey _ hasScResults key).trans (Eq.trans ?_ (Value.get?_eraseKey _ hasScResults key).symm)
    split
    · rfl
    · exact hfees key hk

/-- Unwinding does not see the type. -/
theorem applyAll_unwindMutations_typed (results : List String) (others : Bool) (h : doc.IsDocument)
    (type : String) :
    Mutation.applyAll (unwindMutations d results others) (doc.typed type) =
      (Mutation.applyAll (unwindMutations d results others) doc).typed type := by
  have hordered := ordered_unwindMutations d results others
  have hagree := doc.agreeButType_typed type
  refine Value.AgreeButType.eq_typed (fun key hk => ?_) (Mutation.isDocument_applyAll hordered h)
    (Mutation.isDocument_applyAll hordered (h.typed type)) ?_
  · by_cases hfee : key ∈ Fee.fields
    · exact agreeOn_unwindMutations d hagree.agreeOn_fee results others key hfee
    · rw [get?_unwindMutations d results others _ hfee, get?_unwindMutations d results others _ hfee, hagree key hk]
  · rw [get?_unwindMutations d results others _ (by decide), if_neg fun h => absurd h.2 (by decide),
      Value.get?_typed, if_pos rfl]

/-- Whether something is left does not depend on the type. -/
theorem isBarePlaceholder_typed (h : doc.IsDocument) (type : String) :
    isBarePlaceholder (doc.typed type) = isBarePlaceholder doc := by
  have hkey (key : String) (hk : key ∉ placeholderFields) : (doc.typed type).get? key = doc.get? key := by
    refine doc.agreeButType_typed type key ?_
    rintro rfl
    exact hk (by decide)
  refine Bool.eq_iff_iff.2 ⟨fun hb => ?_, fun hb => ?_⟩
  · exact isBarePlaceholder_of_get? h.record fun key hk => (hkey key hk).symm.trans (get?_of_isBarePlaceholder hb hk)
  · exact isBarePlaceholder_of_get? (h.typed type).record fun key hk =>
      (hkey key hk).trans (get?_of_isBarePlaceholder hb hk)

/-- A revert unwinds an operation as it does the transaction. -/
theorem unwoundAt_typed (h : ∀ doc, stored = some doc → doc.IsDocument) (type : String) :
    unwoundAt d hashes s id (stored.map (·.typed type)) = (unwoundAt d hashes s id stored).map (·.typed type) := by
  unfold unwoundAt
  split
  · next results _ =>
    cases stored with
    | none => rfl
    | some doc =>
      have hdoc := h doc rfl
      have hrest := Mutation.isDocument_applyAll (ordered_unwindMutations d results (others hashes s id)) hdoc
      have hfee : (doc.typed type).get? Fee.feeField = doc.get? Fee.feeField :=
        doc.agreeButType_typed type _ (by decide)
      simp only [Option.map_some, unwound]
      rw [applyAll_unwindMutations_typed d results _ hdoc, isBarePlaceholder_typed hrest, hfee]
      split <;> rfl
  · rfl

theorem get?_type_unwoundAt {type : Option Value} (h : ∀ doc, stored = some doc → doc.get? "type" = type)
    (hd : unwoundAt d hashes s id stored = some doc) : doc.get? "type" = type := by
  refine unwoundAt_induction h (fun results others old hold => ?_) hd
  rw [get?_unwindMutations d results others old (by decide), if_neg fun h => absurd h.2 (by decide), hold]

end Rollback

namespace Call

/-- A result with the hash comes with the call. -/
def HasResult (id : String) : Call → Prop
  | save _ block _ => (block.pool.scResults.find? id).isSome
  | revert .. => False

/-- A transaction of the hash comes with the call, or results or signals of one. -/
def Concerns (id : String) : Call → Prop
  | save ix block _ =>
    (block.pool.transactions.find? id).isSome ∨ id ∈ block.pool.origins ∨ ((ix.signals block).find? id).isSome
  | revert .. => False

end Call

/-- The operation is the document of the index, with the type; that document has none. -/
structure Store.Mirrors (s : Store) (name type id : String) : Prop where
  operation : s.get? Index.operations id = (s.get? name id).map fun doc => doc.set "type" (.str type)
  untyped : ∀ doc, s.get? name id = some doc → doc.get? "type" = none

namespace Call

structure TransactionMirrored (id : String) (s : Store) : Prop where
  mirrors : s.Mirrors Index.transactions "normal" id
  documents : ∀ doc, s.get? Index.transactions id = some doc → doc.IsDocument

/-- What holds of a hash that never concerns a transaction: no result names it, so it is never unwound. -/
structure ResultMirrored (id : String) (s : Store) : Prop where
  mirrors : s.Mirrors Index.scResults "unsigned" id
  unnamed : ∀ hash, Rollback.originOf (s.get? Index.scResults hash) ≠ some id

variable {call : Call}

/-- A call keeps the two documents of a transaction alike, unless it brings a result of the same hash. -/
theorem transactionMirrored_perform (hs : s.Usable) (hup : call.down = []) (ho : call.Ordered)
    (hid : ¬call.HasResult id) (h : TransactionMirrored id s) : TransactionMirrored id (call.perform s) := by
  obtain ⟨⟨hoperation, huntyped⟩, hdocuments⟩ := h
  have htransactions : Index.transactions ∈ Index.records := by decide
  have hoperations : Index.operations ∈ Index.records := by decide
  cases call with
  | save ix block down =>
    obtain rfl : down = [] := hup
    have hr : block.pool.scResults.find? id = none := Option.not_isSome_iff_eq_none.1 hid
    rw [perform_save_nil ix block hs]
    have hgett := ix.get?_saved_records block hs ho htransactions id
    refine ⟨⟨?_, fun doc hd => ?_⟩, fun doc hd => ?_⟩
    · rw [ix.get?_saved_records block hs ho hoperations id, hoperation, hgett]
      exact ix.recordAfter_operation block hr hdocuments
    · rw [hgett] at hd
      exact ix.get?_type_recordAfter block (fun hop => absurd hop (by decide)) huntyped hd
    · rw [hgett] at hd
      exact ix.isDocument_recordAfter hdocuments hd
  | revert ix header body down =>
    obtain rfl : down = [] := hup
    have hremains := (remainsPartly_perform ix header body [] hs).remains
    have hgett := hremains.records Index.transactions htransactions id
    have hgeto := hremains.records Index.operations hoperations id
    by_cases hb : id ∈ body.txHashes
    · rw [if_pos hb] at hgett hgeto
      refine ⟨⟨by rw [hgett, hgeto]; rfl, ?_⟩, ?_⟩ <;> rw [hgett] <;> exact nofun
    · rw [if_neg hb] at hgett hgeto
      refine ⟨⟨?_, fun doc hd => ?_⟩, fun doc hd => ?_⟩
      · rw [hgeto, hoperation, hgett]
        exact Rollback.unwoundAt_typed ix.denomination body.txHashes hdocuments "normal"
      · rw [hgett] at hd
        exact Rollback.get?_type_unwoundAt ix.denomination body.txHashes huntyped hd
      · rw [hgett] at hd
        exact Rollback.isDocument_unwoundAt hdocuments hd

/-- A call keeps the two documents of a result alike, unless it brings a transaction of the same hash. -/
theorem resultMirrored_perform (hs : s.Usable) (hup : call.down = []) (ho : call.Ordered)
    (hid : ¬call.Concerns id) (h : ResultMirrored id s) : ResultMirrored id (call.perform s) := by
  obtain ⟨⟨hoperation, huntyped⟩, hunnamed⟩ := h
  have hoperations : Index.operations ∈ Index.records := by decide
  cases call with
  | save ix block down =>
    obtain rfl : down = [] := hup
    simp only [Concerns, not_or, Option.not_isSome_iff_eq_none] at hid
    obtain ⟨hheld, horigin, hsignal⟩ := hid
    have hchanges : ix.changes? block id = none := by
      rw [ix.changes?_of_foreign block hheld, if_neg]
      simp [horigin, Dict.has, hsignal]
    rw [perform_save_nil ix block hs]
    have hgetr := ix.get?_saved_scResults block hs ho
    have hnone (doc : Value) (hd : ix.resultDocument block id = some doc) : doc.get? "type" = none := by
      obtain ⟨info, -, rfl⟩ := Option.map_eq_some_iff.1 hd
      exact ScResultRecord.get?_toValue_eq_none _ (by decide)
    refine ⟨⟨?_, fun doc hd => ?_⟩, fun hash hnamed => ?_⟩
    · rw [ix.get?_saved_records block hs ho hoperations id, hoperation, hgetr]
      unfold Indexer.recordAfter
      rw [if_pos rfl, hchanges]
      cases ix.resultDocument block id <;> rfl
    · rw [hgetr, Option.or_eq_some_iff] at hd
      exact hd.elim (hnone doc) fun hold => huntyped doc hold.2
    · rw [Rollback.originOf_saved ix hs ho, Option.or_eq_some_iff] at hnamed
      rcases hnamed with hnamed | ⟨-, hnamed⟩
      · obtain ⟨info, hi, hsame⟩ := Option.map_eq_some_iff.1 hnamed
        exact horigin (List.mem_map.2 ⟨(hash, info), Dict.mem_of_find? hi, hsame⟩)
      · exact hunnamed hash hnamed
  | revert ix header body down =>
    obtain rfl : down = [] := hup
    have hremains := (remainsPartly_perform ix header body [] hs).remains
    have hresults : Rollback.resultsOf body.txHashes s id = [] :=
      List.eq_nil_iff_forall_not_mem.2 fun hash hm => hunnamed hash (Rollback.mem_resultsOf.1 hm).2
    have hgeto := hremains.records Index.operations hoperations id
    rw [Rollback.unwoundAt_eq_self hresults] at hgeto
    refine ⟨⟨?_, fun doc hd => ?_⟩, fun hash hnamed => ?_⟩
    · rw [hgeto, hremains.scResults, hoperation]
      split <;> rfl
    · rw [hremains.scResults] at hd
      split at hd
      · cases hd
      · exact huntyped doc hd
    · rw [hremains.scResults] at hnamed
      split at hnamed
      · cases hnamed
      · exact hunnamed hash hnamed

/-- The operations mirror the transactions and the results. In every store that calls reach from an empty one, none of
them with an index unavailable: for a hash that no result of the calls has, the operation is the transaction with the
type `normal`, and for one that is not of a transaction, of one that results belong to, or of one that signals are
about, it is the result with the type `unsigned`. Either is there or not as its original is. -/
theorem operations_mirror (n : Nat) {calls : List Call} (hup : ∀ call ∈ calls, call.down = [])
    (ho : ∀ call ∈ calls, call.Ordered) (id : String) :
    let s := performAll calls (Store.withPageSize n)
    ((∀ call ∈ calls, ¬call.HasResult id) → s.Mirrors Index.transactions "normal" id) ∧
      ((∀ call ∈ calls, ¬call.Concerns id) → s.Mirrors Index.scResults "unsigned" id) := by
  have hempty := Store.usable_withPageSize n
  refine ⟨fun hid => ?_, fun hid => ?_⟩
  · exact (performAll_induction hempty ⟨⟨rfl, nofun⟩, nofun⟩ fun call hc t ht hmirrored =>
      transactionMirrored_perform ht (hup call hc) (ho call hc) (hid call hc) hmirrored).2.mirrors
  · exact (performAll_induction hempty ⟨⟨rfl, nofun⟩, nofun⟩ fun call hc t ht hmirrored =>
      resultMirrored_perform ht (hup call hc) (ho call hc) (hid call hc) hmirrored).2.mirrors

/-- A result is saved before its transaction and reverted; then comes a block with the transaction and another result
of it, which failed. -/
theorem operations_mirror_unwound :
    let ix : Indexer := {}
    let result : ScResultInfo := { result := { originTxHash := [0xaa] }, feeInfo := { gasRefunded := 5000 } }
    let first : Block :=
      { header := { hash := [1] }, body := ⟨[{ hash := [0x5c], kind := .scResults, txHashes := [[0xb1]] }]⟩
        pool := { scResults := [("b1", result)] } }
    let second : Block :=
      { header := { hash := [2] }
        pool := { transactions := [("aa", {})], scResults := [("b2", result)]
                  logs := [{ txHash := "b2", events := [{ identifier := "signalError" }] }] } }
    let calls : List Call := [.save ix first [], .revert ix first.header first.body [], .save ix second []]
    let s := performAll calls (Store.withPageSize 10)
    (∀ call ∈ calls, call.down = []) ∧ (∀ call ∈ calls, call.Ordered) ∧
      (∃ doc, s.get? Index.transactions "aa" = some doc ∧
        s.get? Index.operations "aa" = some (doc.set "type" (.str "normal"))) ∧
      ∃ doc, s.get? Index.scResults "b2" = some doc ∧
        s.get? Index.operations "b2" = some (doc.set "type" (.str "unsigned")) := by
  intro ix result first second calls s
  have hfirst : first.Ordered := ⟨List.Pairwise.nil, by simp [first, Dict.Sorted]⟩
  have hsecond : second.Ordered := ⟨by simp [second, Dict.Sorted], by simp [second, Dict.Sorted]⟩
  have hup : ∀ call ∈ calls, call.down = [] := by simp [calls, down]
  have hordered : ∀ call ∈ calls, call.Ordered := by simp [calls, Ordered, hfirst, hsecond]
  have hnone : ∀ call ∈ calls, ¬call.HasResult "aa" := by
    simp [calls, HasResult, first, second, Dict.find?]
  have hquiet : ∀ call ∈ calls, ¬call.Concerns "b2" := by
    simp only [calls, List.forall_mem_cons, Concerns]
    exact ⟨by decide +kernel, not_false, by decide +kernel, List.forall_mem_nil _⟩
  have hbefore : (performAll [.save ix first [], .revert ix first.header first.body []]
      (Store.withPageSize 10)).Usable := usable_performAll _ (Store.usable_withPageSize 10)
  have hlast : s = ix.saved second (performAll [.save ix first [], .revert ix first.header first.body []]
      (Store.withPageSize 10)) := perform_save_nil ix second hbefore
  refine ⟨hup, hordered, ?_, ?_⟩
  · have hmirror := (operations_mirror 10 hup hordered "aa").1 hnone
    have hfound : second.pool.transactions.find? "aa" = some {} := rfl
    have hheld := ix.recordAfter_of_held second hfound rfl Index.transactions
      ((performAll [.save ix first [], .revert ix first.header first.body []] (Store.withPageSize 10)).get?
        Index.transactions "aa")
    have hdoc := (ix.get?_saved_records second hbefore hsecond (by decide) "aa").trans hheld
    rw [← hlast] at hdoc
    exact ⟨_, hdoc, hmirror.operation.trans (congrArg _ hdoc)⟩
  · have hmirror := (operations_mirror 10 hup hordered "b2").2 hquiet
    have hresult := ix.get?_saved_scResults second hbefore hsecond "b2"
    rw [← hlast] at hresult
    exact ⟨_, hresult, hmirror.operation.trans (congrArg _ hresult)⟩

end Call
end ChainIndex
