import ChainIndex.Proofs.Correlation.Effect
import ChainIndex.Proofs.Correlation.Writes
import ChainIndex.Proofs.Event.Signals
import ChainIndex.Proofs.Indexer.Revert
import ChainIndex.Proofs.Indexer.Save

/-!
The documents of transactions, operations and results after a block was saved, and the transactions
that a revert unwinds: those that the stored results of the body name.
-/
namespace ChainIndex

variable {s : Store}

/-- Transactions and results in the order of their hashes, as every decoded block has them. -/
structure Block.Ordered (block : Block) : Prop where
  transactions : block.pool.transactions.Sorted
  scResults : block.pool.scResults.Sorted

theorem Index.mem_revertible_of_mem_records {name : String} (h : name ∈ Index.records) :
    name ∈ Index.revertible := by
  simp only [records, List.mem_cons, List.not_mem_nil, or_false] at h
  rcases h with rfl | rfl <;> decide

theorem Index.mem_of_mem_records {name : String} (h : name ∈ Index.records) :
    name ∈ [Index.transactions, Index.operations, Index.scResults] := by
  simp only [records, List.mem_cons, List.not_mem_nil, or_false] at h
  rcases h with rfl | rfl <;> decide

/-- The indices that reverts change beside those of transactions. -/
theorem Index.eq_of_mem_revertible {name : String} (h : name ∈ Index.revertible) (hr : name ∉ Index.records) :
    name = scResults ∨ name = miniBlocks ∨ name = blocks ∨ name = balances := by
  simp only [revertible, records, List.mem_cons, List.not_mem_nil, or_false, not_or] at h hr
  exact (h.resolve_left hr.1).resolve_left hr.2

namespace Indexer

variable (ix : Indexer) (block : Block)

def signals : Dict StatusInfo := (ix.accumulate block).statuses

theorem sorted_signals : (ix.signals block).Sorted := (Registry.plain_processLogs _ block.pool _).1

def changes? (id : String) : Option (List Mutation) :=
  ix.correlator.changes? block.header block.body block.pool (ix.signals block) id

def resultDocument (id : String) : Option Value :=
  ix.correlator.resultDocument block.header block.body block.pool id

def typing (name : String) : List Mutation :=
  if name = Index.operations then [CorrelatedBlock.operationType] else []

def recordAfter (name id : String) (stored : Option Value) : Option Value :=
  match if name = Index.operations then ix.resultDocument block id else none with
  | some doc => some (doc.set "type" (.str "unsigned"))
  | none =>
    match ix.changes? block id with
    | some ms => some (Mutation.applyAll (ms ++ typing name) (stored.getD .empty))
    | none => stored

theorem resultDocument_eq_none_iff {id : String} :
    ix.resultDocument block id = none ↔ block.pool.scResults.find? id = none := Option.map_eq_none_iff

def heldTx (id : String) (info : TxInfo) : CorrelatedTx :=
  ix.correlator.correlatedTx block.header block.body block.pool (ix.signals block) id info

def foreignUpdate (id : String) : ForeignUpdate :=
  ⟨block.pool.origins.contains id, block.pool.refundsOf id, (ix.signals block).find? id⟩

theorem changes?_of_held {id : String} {info : TxInfo} (hi : block.pool.transactions.find? id = some info) :
    ix.changes? block id = some (ix.heldTx block id info).mutations := by
  unfold changes? Correlator.changes?
  rw [hi]
  rfl

/-- A block adds to a transaction that it does not hold if it has results or signals of it. -/
theorem changes?_of_foreign {id : String} (hi : block.pool.transactions.find? id = none) :
    ix.changes? block id =
      if id ∈ block.pool.origins ∨ (ix.signals block).has id then
        some ((ix.foreignUpdate block id).mutations ix.denomination)
      else none := by
  unfold changes? Correlator.changes?
  rw [hi]
  rfl

/-- A block changes a transaction that it holds, stored or not. -/
theorem recordAfter_of_held {id : String} {info : TxInfo}
    (hi : block.pool.transactions.find? id = some info) (hr : block.pool.scResults.find? id = none)
    (name : String) (stored : Option Value) :
    ix.recordAfter block name id stored =
      some (Mutation.applyAll ((ix.heldTx block id info).mutations ++ typing name) (stored.getD .empty)) := by
  have hresult : (if name = Index.operations then ix.resultDocument block id else none) = none := by
    rw [(ix.resultDocument_eq_none_iff block).2 hr, ite_self]
  unfold recordAfter
  rw [hresult, ix.changes?_of_held block hi]

/-- How a block can come to write or to keep a document: as that of a result, of a transaction it
holds, of one it adds to, or by leaving it alone. -/
theorem recordAfter_cases {name id : String} {stored : Option Value} {doc : Value}
    (h : ix.recordAfter block name id stored = some doc) :
    (∃ result info, name = Index.operations ∧ block.pool.scResults.find? id = some info ∧
      ix.resultDocument block id = some result ∧ doc = result.set "type" (.str "unsigned")) ∨
    (∃ info, block.pool.transactions.find? id = some info ∧
      doc = Mutation.applyAll ((ix.heldTx block id info).mutations ++ typing name) (stored.getD .empty)) ∨
    (block.pool.transactions.find? id = none ∧ doc =
      Mutation.applyAll ((ix.foreignUpdate block id).mutations ix.denomination ++ typing name)
        (stored.getD .empty)) ∨
    (stored = some doc ∧ id ∉ block.pool.origins) := by
  unfold recordAfter at h
  split at h
  · next result hr =>
    split at hr
    · next hname =>
      cases hi : block.pool.scResults.find? id with
      | none => rw [(ix.resultDocument_eq_none_iff block).2 hi] at hr; cases hr
      | some info => exact .inl ⟨result, info, hname, rfl, hr, (Option.some.inj h).symm⟩
    · cases hr
  · cases hi : block.pool.transactions.find? id with
    | some info =>
      rw [ix.changes?_of_held block hi] at h
      exact .inr (.inl ⟨info, rfl, (Option.some.inj h).symm⟩)
    | none =>
      rw [ix.changes?_of_foreign block hi] at h
      split at h
      · next ms hms =>
        split at hms
        · obtain rfl := Option.some.inj hms
          exact .inr (.inr (.inl ⟨rfl, (Option.some.inj h).symm⟩))
        · cases hms
      · next hms =>
        split at hms
        · cases hms
        · next hnone => exact .inr (.inr (.inr ⟨h, fun ho => hnone (.inl ho)⟩))

/-- A document is absent afterwards only if it was, and if no result of the block belongs to it. -/
theorem recordAfter_eq_none {name id : String} {stored : Option Value}
    (h : ix.recordAfter block name id stored = none) : stored = none ∧ id ∉ block.pool.origins := by
  unfold recordAfter at h
  split at h
  · cases h
  · cases hi : block.pool.transactions.find? id with
    | some info =>
      rw [ix.changes?_of_held block hi] at h
      cases h
    | none =>
      rw [ix.changes?_of_foreign block hi] at h
      split at h
      · cases h
      · next hms =>
        split at hms
        · cases hms
        · next hnone => exact ⟨h, fun ho => hnone (.inl ho)⟩

/-- The type of an operation touches no other field. -/
theorem get?_typing (name : String) (doc : Value) (key : String) :
    (Mutation.applyAll (typing name) doc).get? key =
      if name = Index.operations ∧ "type" = key then some (.str "normal") else doc.get? key := by
  unfold typing
  split
  · next hn =>
    refine (CorrelatedBlock.get?_operationType doc key).trans ?_
    simp [hn]
  · next hn => simp [hn]

/-- All writes to a transaction or to its operation, as one function of what is stored. -/
theorem written_records (hb : block.Ordered) {name : String} (hn : name ∈ Index.records) (id : String)
    (stored : Option Value) : ix.written block name id stored = ix.recordAfter block name id stored := by
  simp only [Index.records, List.mem_cons, List.not_mem_nil, or_false] at hn
  rcases hn with rfl | rfl
  · have hitems := ix.correlator.applyAt_transactions block.header block.body (ix.signals block) id stored
      hb.transactions (ix.sorted_signals block)
    refine Eq.trans hitems ?_
    have hne : Index.transactions ≠ Index.operations := by decide
    simp only [recordAfter, typing, hne, ↓reduceIte, List.append_nil]
    rfl
  · have hitems := ix.correlator.applyAt_operations block.header block.body (ix.signals block) id stored
      hb.transactions hb.scResults (ix.sorted_signals block)
    refine Eq.trans hitems ?_
    simp only [recordAfter, typing, ↓reduceIte]
    rfl

theorem written_scResults (hb : block.Ordered) (id : String) (stored : Option Value) :
    ix.written block Index.scResults id stored = (ix.resultDocument block id).or stored := by
  have hitems := ix.correlator.applyAt_scResults block.header block.body (ix.signals block) id stored
    hb.scResults
  refine Eq.trans hitems ?_
  unfold resultDocument
  cases ix.correlator.resultDocument block.header block.body block.pool id <;> rfl

theorem get?_saved_records (h : s.Usable) (hb : block.Ordered) {name : String} (hn : name ∈ Index.records)
    (id : String) : (ix.saved block s).get? name id = ix.recordAfter block name id (s.get? name id) := by
  rw [ix.get?_saved block h (Index.mem_revertible_of_mem_records hn), ix.written_records block hb hn]

theorem get?_saved_scResults (h : s.Usable) (hb : block.Ordered) (id : String) :
    (ix.saved block s).get? Index.scResults id =
      (ix.resultDocument block id).or (s.get? Index.scResults id) := by
  rw [ix.get?_saved block h (by decide), ix.written_scResults block hb]

/-- The document of a result names the result's transaction. -/
theorem get?_resultDocument {id : String} {info : ScResultInfo}
    (hi : block.pool.scResults.find? id = some info) :
    ∃ doc, ix.resultDocument block id = some doc ∧
      doc.get? Rollback.originTxHash = some (.str info.result.originHash) := by
  refine ⟨_, congrArg _ hi, ?_⟩
  exact ScResultRecord.get?_toValue_originTxHash _

end Indexer

/-- The type of an operation is no field of its ledger. -/
theorem Ledger.Shows.typing {d : Denomination} {l : Ledger} {doc : Value} (h : l.Shows d doc)
    (name : String) :
    l.Shows d (Mutation.applyAll (Indexer.typing name) doc) := by
  unfold Indexer.typing
  split
  · refine h.of_get? (CorrelatedBlock.isRecord_operationType h.record) fun key hk => ?_
    refine (CorrelatedBlock.get?_operationType doc key).trans (if_neg ?_)
    rintro rfl
    exact absurd hk (by decide)
  · exact h

namespace Rollback

def originOf (stored : Option Value) : Option String := (stored.bind (·.get? originTxHash)).bind Value.text?

/-- A stored result names its transaction. -/
theorem originOf_resultDocument (ix : Indexer) (block : Block) {id : String} {info : ScResultInfo}
    (hi : block.pool.scResults.find? id = some info) :
    originOf (ix.resultDocument block id) = some info.result.originHash := by
  obtain ⟨doc, hdoc, hname⟩ := ix.get?_resultDocument block hi
  simp [originOf, hdoc, hname, Value.text?]

/-- After a save a stored result names the transaction that it has in the block, or else the one that it named
before. -/
theorem originOf_saved (ix : Indexer) {block : Block} {s : Store} (h : s.Usable) (hb : block.Ordered) (id : String) :
    originOf ((ix.saved block s).get? Index.scResults id) =
      ((block.pool.scResults.find? id).map (·.result.originHash)).or (originOf (s.get? Index.scResults id)) := by
  rw [ix.get?_saved_scResults block h hb]
  cases hi : block.pool.scResults.find? id with
  | none => rw [(ix.resultDocument_eq_none_iff block).2 hi, Option.none_or, Option.map_none, Option.none_or]
  | some info =>
    obtain ⟨doc, hdoc, -⟩ := ix.get?_resultDocument block hi
    rw [hdoc, Option.some_or, ← hdoc, originOf_resultDocument ix block hi]
    rfl

def resultsOf (hashes : List String) (s : Store) (parent : String) : List String :=
  hashes.filter fun hash => originOf (s.get? Index.scResults hash) = some parent

def addResult (hashes : List String) (groups : Dict (List String)) (e : String × Option Value) :
    Dict (List String) :=
  match originOf e.2 with
  | some parent =>
    if hashes.contains parent then groups else groups.alter parent fun known => known.getD [] ++ [e.1]
  | none => groups

theorem resultsByParent_eq_foldl (hashes : List String) (docs : List (Option Value)) :
    resultsByParent hashes docs = (hashes.zip docs).foldl (addResult hashes) [] := rfl

theorem find?_addResult (hashes : List String) (groups : Dict (List String)) (e : String × Option Value)
    (parent : String) :
    (addResult hashes groups e).find? parent =
      if parent ∉ hashes ∧ originOf e.2 = some parent then
        some ((groups.find? parent).getD [] ++ [e.1])
      else groups.find? parent := by
  unfold addResult
  cases ho : originOf e.2 with
  | none => simp
  | some other =>
    by_cases hmem : other ∈ hashes
    · have hskip : ¬(parent ∉ hashes ∧ some other = some parent) := fun h =>
        h.1 (Option.some.inj h.2 ▸ hmem)
      rw [if_neg hskip]
      simp [hmem]
    · by_cases he : other = parent
      · subst he
        simp [hmem, Dict.find?_alter]
      · simp [hmem, he, Dict.find?_alter]

/-- The results of a transaction are grouped in the order of the hashes; transactions among the hashes have no
group. -/
theorem find?_foldl_addResult (hashes xs : List String) (s : Store) (groups : Dict (List String))
    (parent : String) (hp : parent ∉ hashes) :
    ((xs.zip (xs.map (s.get? Index.scResults))).foldl (addResult hashes) groups).find? parent =
      if resultsOf xs s parent = [] then groups.find? parent
      else some ((groups.find? parent).getD [] ++ resultsOf xs s parent) := by
  induction xs generalizing groups with
  | nil => rfl
  | cons hash rest ih =>
    rw [List.map_cons, List.zip_cons_cons, List.foldl_cons, ih, find?_addResult]
    unfold resultsOf
    rw [List.filter_cons]
    by_cases ho : originOf (s.get? Index.scResults hash) = some parent
    · by_cases hrest : rest.filter (fun hash => originOf (s.get? Index.scResults hash) = some parent) = []
      · simp only [hrest]
        simp [hp, ho]
      · simp [hp, ho, hrest]
    · simp [ho]

/-- Results are grouped by the transaction they name, unless that is reverted too. -/
theorem find?_parents (hashes : List String) (s : Store) (parent : String) :
    (parents hashes s).find? parent =
      if parent ∈ hashes ∨ resultsOf hashes s parent = [] then none
      else some (resultsOf hashes s parent) := by
  rw [parents, resultsByParent_eq_foldl]
  by_cases hp : parent ∈ hashes
  · have hkeep (entries : List (String × Option Value)) :
        (entries.foldl (addResult hashes) []).find? parent = none := by
      refine List.foldlRecOn (motive := (Dict.find? · parent = none)) _ _ rfl fun groups hg e _ => ?_
      simp [find?_addResult, hp, hg]
    rw [hkeep, if_pos (.inl hp)]
  · rw [find?_foldl_addResult hashes hashes s [] parent hp]
    simp [hp]

theorem mem_resultsOf {hashes : List String} {parent hash : String} :
    hash ∈ resultsOf hashes s parent ↔
      hash ∈ hashes ∧ originOf (s.get? Index.scResults hash) = some parent := by
  simp [resultsOf]

/-- A transaction that no result names is left alone. -/
theorem unwoundAt_eq_self {hashes : List String} {parent : String} (h : resultsOf hashes s parent = [])
    (d : Denomination) (stored : Option Value) : unwoundAt d hashes s parent stored = stored := by
  rw [unwoundAt, find?_parents, if_pos (.inr h)]

/-- One that results name, and the hashes do not, is unwound by those results. -/
theorem unwoundAt_eq_unwound {hashes : List String} {parent : String} (hp : parent ∉ hashes)
    (h : resultsOf hashes s parent ≠ []) (d : Denomination) (stored : Option Value) :
    unwoundAt d hashes s parent stored =
      unwound (unwindMutations d (resultsOf hashes s parent) (others hashes s parent)) stored := by
  rw [unwoundAt, find?_parents, if_neg (not_or.2 ⟨hp, h⟩)]

/-- Other results remain where one that is not reverted names the transaction. -/
theorem others_eq_true_iff (h : s.Usable) {hashes : List String} {parent : String} :
    others hashes s parent = true ↔
      ∃ id, id ∉ hashes ∧ originOf (s.get? Index.scResults id) = some parent := by
  have hkeys : Path.keys originTxHash = [originTxHash] := rfl
  have hselects (doc : Value) : (Query.term originTxHash (.str parent)).selects doc = true ↔
      (doc.get? originTxHash).bind Value.text? = some parent := by
    rw [Query.selects, Value.lookup?_of_keys hkeys]
    cases doc.get? originTxHash with
    | none => simp
    | some v => cases v <;> simp [Value.same_str_iff, Value.text?]
  unfold others
  rw [h.any_selected Index.scResults _ fun id => !hashes.contains id]
  constructor
  · rintro ⟨id, doc, hdoc, hq, hout⟩
    exact ⟨id, by simpa using hout, by simpa [originOf, hdoc] using (hselects doc).1 hq⟩
  · rintro ⟨id, hout, horigin⟩
    cases hdoc : s.get? Index.scResults id with
    | none => simp [originOf, hdoc] at horigin
    | some doc =>
      exact ⟨id, doc, hdoc, (hselects doc).2 (by simpa [originOf, hdoc] using horigin), by simpa using hout⟩

end Rollback
end ChainIndex
