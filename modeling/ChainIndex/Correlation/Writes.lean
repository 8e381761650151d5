import ChainIndex.Correlation.Basic
import ChainIndex.Write.Action

/-!
The writes of a correlated block. Every transaction and every result is also an operation, the same
document with a type.
-/
namespace ChainIndex

structure RecordWrites where
  transactions : List WriteItem := []
  scResults : List WriteItem := []
  operations : List WriteItem := []
  skipped : List String := []

namespace CorrelatedTx

/-- The record, the fee, and the status. Where the transaction is only sent, what is stored already
stands: the block that executes it owns the record. -/
def mutations (tx : CorrelatedTx) : List Mutation :=
  let record := tx.record.toJson.toValue
  let known :=
    match tx.status.signal? with
    | some signal => [.merge record, .fee tx.fee, .latchStatus signal]
    | none =>
      [.mergeIfAbsent record, .fee tx.fee,
        .mergeIfAbsent (.record [("status", .str TxStatus.pending.label)])]
  known ++ tx.signal.toList.map .latchStatus

end CorrelatedTx

namespace ForeignUpdate

def mutations (d : Denomination) (u : ForeignUpdate) : List Mutation :=
  (if u.hasScResults then [.merge (.record [("hasScResults", .bool true)])] else []) ++
  (u.refunds.map fun (id, refund) => .fee (.relativeAdjust id refund d)) ++
  u.signal.toList.map .latchStatus

end ForeignUpdate

namespace CorrelatedBlock

def operationType : Mutation := .merge (.record [("type", .str "normal")])

def changes (b : CorrelatedBlock) : List (String × List Mutation) :=
  (b.transactions.map fun tx => (tx.record.hash, tx.mutations)) ++
    b.foreign.map fun (hash, u) => (hash, u.mutations b.denomination)

def writes (b : CorrelatedBlock) : RecordWrites where
  transactions := b.changes.map fun (hash, ms) => ⟨hash, .upsert ms⟩
  scResults := b.scResults.map fun r => ⟨r.hash, .overwrite r.toJson.toValue⟩
  operations :=
    (b.changes.map fun (hash, ms) => ⟨hash, .upsert (ms ++ [operationType])⟩) ++
      b.scResults.map fun r =>
        ⟨r.hash, .overwrite (r.toJson.toValue.set "type" (.str "unsigned"))⟩

end CorrelatedBlock
end ChainIndex
