import ChainIndex.Json.Slots

/-!
Log events that a transaction emits while it executes.
-/
namespace ChainIndex

structure Event where
  address : Bytes := []
  identifier : String := ""
  topics : List Bytes := []
  data : Bytes := []
deriving DecidableEq, Repr, Inhabited

namespace Event

def topic? (e : Event) (index : Nat) : Option Bytes := e.topics[index]?

def fieldNames : List String := ["address", "identifier", "topics", "data"]

def toJson (e : Event) : Json :=
  .obj [("address", .octets e.address), ("identifier", .str e.identifier),
    ("topics", .arr (e.topics.map .octets)), ("data", .octets e.data)]

def ofJson? (j : Json) : Option Event := do
  let [address, identifier, topics, data] ← j.record? fieldNames | none
  return {
    address := ← address.required? Json.octets?
    identifier := ← identifier.required? Json.str?
    topics := ← topics.required? (Json.list? Json.octets?)
    data := ← data.required? Json.octets? }

end Event

/-- The events of one transaction or smart contract result, which `txHash` names in hexadecimal;
`address` is the account that executed. -/
structure Log where
  txHash : String := ""
  address : Bytes := []
  events : List Event := []
deriving DecidableEq, Repr, Inhabited

namespace Log

def fieldNames : List String := ["tx_hash", "address", "events"]

def toJson (l : Log) : Json :=
  .obj [("tx_hash", .str l.txHash), ("address", .octets l.address),
    ("events", .arr (l.events.map Event.toJson))]

def ofJson? (j : Json) : Option Log := do
  let [txHash, address, events] ← j.record? fieldNames | none
  return {
    txHash := ← txHash.required? Json.str?
    address := ← address.required? Json.octets?
    events := ← events.required? (Json.list? Event.ofJson?) }

end Log
end ChainIndex
