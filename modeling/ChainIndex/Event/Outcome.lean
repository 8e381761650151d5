import ChainIndex.Event.Delta
import ChainIndex.Event.Name
import ChainIndex.Chain.Log
import ChainIndex.Denomination

/-!
What a classifier makes of an event, and what it may know besides the event.
-/
namespace ChainIndex

inductive Outcome where
  /-- The event is none of the classifier's business. -/
  | notApplicable
  /-- The event was taken. Without deltas it was malformed and deliberately ignored. -/
  | processed (deltas : List Delta)
deriving DecidableEq, Repr

namespace Outcome

def swallowed : Outcome := .processed []

def single (delta : Delta) : Outcome := .processed [delta]

def deltas? : Outcome → Option (List Delta)
  | notApplicable => none
  | processed deltas => some deltas

end Outcome

/-- The surroundings of an event: the hash of the transaction or result whose log holds it, the hash
of the transaction that the log belongs to in the end, the account that executed, and the block. -/
structure EventContext where
  codec : AddressFormat := AddressCodec.format {}
  metadata : MetadataCodec := .json
  txHash : String := ""
  originTxHash : String := ""
  logAddress : Bytes := []
  timestamp : UInt64 := 0
  shard : UInt32 := 0
  denomination : Denomination := ⟨18⟩
deriving Inhabited

def EventContext.address? (ctx : EventContext) (address : Bytes) : Option String :=
  match ctx.codec.encodeOrEmpty address with
  | "" => none
  | text => some text

end ChainIndex
