import ChainIndex.Json.Slots
import ChainIndex.Bytes.Hex

/-!
Headers of shard blocks and the miniblocks of their bodies.
-/
namespace ChainIndex

structure Header where
  hash : Bytes := []
  prevHash : Bytes := []
  nonce : UInt64 := 0
  round : UInt64 := 0
  epoch : UInt32 := 0
  shard : UInt32 := 0
  timestamp : UInt64 := 0
deriving DecidableEq, Repr, Inhabited

inductive MiniBlockKind where
  | transactions
  | scResults
  | invalid
  | rewards
  | receipts
  | peers
deriving DecidableEq, Repr, Inhabited

structure MiniBlock where
  hash : Bytes := []
  sender : UInt32 := 0
  receiver : UInt32 := 0
  kind : MiniBlockKind := .transactions
  txHashes : List Bytes := []
deriving DecidableEq, Repr, Inhabited

structure Body where
  miniBlocks : List MiniBlock := []
deriving DecidableEq, Repr, Inhabited

def Header.hashHex (h : Header) : String := h.hash.hex

def MiniBlock.hashHex (m : MiniBlock) : String := m.hash.hex

def Body.txHashes (b : Body) : List String := b.miniBlocks.flatMap fun m => m.txHashes.map Bytes.hex

namespace Header

def fieldNames : List String :=
  ["hash", "prev_hash", "nonce", "round", "epoch", "shard_id", "timestamp"]

def toJson (h : Header) : Json :=
  .obj [("hash", .octets h.hash), ("prev_hash", .octets h.prevHash), ("nonce", .nat h.nonce.toNat),
    ("round", .nat h.round.toNat), ("epoch", .nat h.epoch.toNat), ("shard_id", .nat h.shard.toNat),
    ("timestamp", .nat h.timestamp.toNat)]

def ofJson? (j : Json) : Option Header := do
  let [hash, prevHash, nonce, round, epoch, shard, timestamp] ← j.record? fieldNames | none
  return {
    hash := ← hash.required? Json.octets?
    prevHash := ← prevHash.required? Json.octets?
    nonce := ← nonce.required? Json.uint64?
    round := ← round.required? Json.uint64?
    epoch := ← epoch.required? Json.uint32?
    shard := ← shard.required? Json.uint32?
    timestamp := ← timestamp.required? Json.uint64? }

end Header

namespace MiniBlockKind

def label : MiniBlockKind → String
  | transactions => "TxBlock"
  | scResults => "SmartContractResultBlock"
  | invalid => "InvalidBlock"
  | rewards => "RewardsBlock"
  | receipts => "ReceiptBlock"
  | peers => "PeerBlock"

def all : List MiniBlockKind := [transactions, scResults, invalid, rewards, receipts, peers]

def ofLabel? (text : String) : Option MiniBlockKind := all.find? (·.label == text)

def ofJson? (j : Json) : Option MiniBlockKind := j.variantName?.bind ofLabel?

end MiniBlockKind

namespace MiniBlock

def fieldNames : List String :=
  ["hash", "sender_shard_id", "receiver_shard_id", "mb_type", "tx_hashes"]

def toJson (m : MiniBlock) : Json :=
  .obj [("hash", .octets m.hash), ("sender_shard_id", .nat m.sender.toNat),
    ("receiver_shard_id", .nat m.receiver.toNat), ("mb_type", .str m.kind.label),
    ("tx_hashes", .arr (m.txHashes.map .octets))]

def ofJson? (j : Json) : Option MiniBlock := do
  let [hash, sender, receiver, kind, txHashes] ← j.record? fieldNames | none
  return {
    hash := ← hash.required? Json.octets?
    sender := ← sender.required? Json.uint32?
    receiver := ← receiver.required? Json.uint32?
    kind := ← kind.required? MiniBlockKind.ofJson?
    txHashes := ← txHashes.required? (Json.list? Json.octets?) }

end MiniBlock

namespace Body

def toJson (b : Body) : Json := .obj [("mini_blocks", .arr (b.miniBlocks.map MiniBlock.toJson))]

def ofJson? (j : Json) : Option Body := do
  let [miniBlocks] ← j.record? ["mini_blocks"] | none
  return { miniBlocks := ← miniBlocks.required? (Json.list? MiniBlock.ofJson?) }

end Body
end ChainIndex
