import ChainIndex.Proofs.Correlation.Changes
import ChainIndex.Proofs.Items

/-!
What the writes of a block make of each document of transactions, of results and of operations.
-/
namespace ChainIndex
namespace Correlator

variable (c : Correlator) (header : Header) (body : Body) {pool : Pool} (signals : Dict StatusInfo)
  (h : String) (stored : Option Value)

def resultDocument (pool : Pool) (h : String) : Option Value :=
  (pool.scResults.find? h).map fun info =>
    (c.scResultRecord h info header (body.miniBlockOf.find? h)).toJson.toValue

/-- Each changed transaction has one upsert, with its changes. -/
theorem applyAt_changes (ht : pool.transactions.Sorted) (hs : signals.Sorted)
    (f : List Mutation → List Mutation) :
    WriteItem.applyAt h
        ((c.correlate header body pool signals).changes.map fun e => ⟨e.1, .upsert (f e.2)⟩) stored =
      match c.changes? header body pool signals h with
      | some ms => some (Mutation.applyAll (f ms) (stored.getD .empty))
      | none => stored := by
  have hnodup := c.nodup_keys_changes header body pool signals ht
  rw [WriteItem.applyAt_map h stored hnodup fun _ ms => .upsert (f ms),
    c.find?_changes header body pool signals hs]
  cases c.changes? header body pool signals h <;> rfl

theorem applyAt_transactions (ht : pool.transactions.Sorted) (hs : signals.Sorted) :
    WriteItem.applyAt h (c.correlate header body pool signals).writes.transactions stored =
      match c.changes? header body pool signals h with
      | some ms => some (Mutation.applyAll ms (stored.getD .empty))
      | none => stored :=
  c.applyAt_changes header body signals h stored ht hs id

/-- Each result replaces the document of its hash. -/
theorem applyAt_resultDocuments (hr : pool.scResults.Sorted) (f : Value → Value) :
    WriteItem.applyAt h
        ((c.correlate header body pool signals).scResults.map fun r =>
          ⟨r.hash, .overwrite (f r.toJson.toValue)⟩) stored =
      match c.resultDocument header body pool h with
      | some doc => some (f doc)
      | none => stored := by
  have hmap := WriteItem.applyAt_map h stored hr.nodup_keys fun hash info =>
    .overwrite (f (c.scResultRecord hash info header (body.miniBlockOf.find? hash)).toJson.toValue)
  simp only [correlate, List.map_map]
  refine Eq.trans hmap ?_
  unfold resultDocument
  cases pool.scResults.find? h <;> rfl

theorem applyAt_scResults (hr : pool.scResults.Sorted) :
    WriteItem.applyAt h (c.correlate header body pool signals).writes.scResults stored =
      match c.resultDocument header body pool h with
      | some doc => some doc
      | none => stored :=
  c.applyAt_resultDocuments header body signals h stored hr id

/-- An operation is the document of the result, if there is one, and otherwise that of the transaction. -/
theorem applyAt_operations (ht : pool.transactions.Sorted) (hr : pool.scResults.Sorted)
    (hs : signals.Sorted) :
    WriteItem.applyAt h (c.correlate header body pool signals).writes.operations stored =
      match c.resultDocument header body pool h with
      | some doc => some (doc.set "type" (.str "unsigned"))
      | none =>
        match c.changes? header body pool signals h with
        | some ms => some (Mutation.applyAll (ms ++ [CorrelatedBlock.operationType]) (stored.getD .empty))
        | none => stored := by
  have hchanges := c.applyAt_changes header body signals h stored ht hs (· ++ [CorrelatedBlock.operationType])
  have hresults := c.applyAt_resultDocuments header body signals h
    (WriteItem.applyAt h ((c.correlate header body pool signals).changes.map fun e =>
      ⟨e.1, .upsert (e.2 ++ [CorrelatedBlock.operationType])⟩) stored) hr (·.set "type" (.str "unsigned"))
  rw [← hchanges, ← hresults]
  exact WriteItem.applyAt_append h _ _ _

end Correlator
end ChainIndex
