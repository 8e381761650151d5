import ChainIndex.Digest.Blake2b
import ChainIndex.Event.Delta
import ChainIndex.Write.Action

/-!
The changes of one delegator's document, in order. A deletion makes all before it void.
-/
namespace ChainIndex

def delegatorId (address contract : String) : String :=
  (Blake2b.digest 32 (Utf8.encode address ++ Utf8.encode contract)).hex

structure DelegatorAccumulator where
  mutations : List Mutation := []
  deleted : Bool := false

namespace StakeChange

def fundsField : String := "unDelegateInfo"

def mutations (c : StakeChange) : List Mutation :=
  [.merge (.record [("address", .str c.address), ("contract", .str c.contract),
    ("activeStake", .str c.activeStake), ("activeStakeNum", .double c.activeStakeNum),
    ("timestamp", .nat c.timestamp)])] ++
  (c.unDelegated.toList.map fun u =>
    Mutation.addToSet fundsField [.record [("id", .str u.id), ("value", .str u.value),
      ("valueNum", .double u.valueNum), ("timestamp", .nat u.timestamp)]]) ++
  if c.withdrawnFunds.isEmpty then []
  else [.removeWhere fundsField "id" (c.withdrawnFunds.map .str)]

end StakeChange

namespace DelegatorAccumulator

def add (acc : DelegatorAccumulator) (c : StakeChange) : DelegatorAccumulator :=
  if c.shouldDelete then ⟨[], true⟩ else { acc with mutations := acc.mutations ++ c.mutations }

def action (acc : DelegatorAccumulator) : WriteAction :=
  match acc.deleted, acc.mutations with
  | true, [] => .delete
  | true, ms => .overwrite (Mutation.applyAll ms .empty)
  | false, ms => .upsert ms

end DelegatorAccumulator
end ChainIndex
