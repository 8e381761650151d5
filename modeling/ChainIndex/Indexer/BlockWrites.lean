import ChainIndex.Chain.Header
import ChainIndex.Write.Action

/-!
The documents of blocks and of miniblocks. A miniblock is written by its sending and by its
receiving shard, and each gives the hash of its own block.
-/
namespace ChainIndex

def senderBlockHash : String := "senderBlockHash"
def receiverBlockHash : String := "receiverBlockHash"

def blockWrite (header : Header) (body : Body) : WriteItem where
  id := header.hashHex
  action := .overwrite <| .record [("nonce", .nat header.nonce), ("round", .nat header.round),
    ("epoch", .nat header.epoch.toUInt64), ("shardId", .nat header.shard.toUInt64),
    ("timestamp", .nat header.timestamp), ("prevHash", .str header.prevHash.hex),
    ("miniBlocksHashes", .strings (body.miniBlocks.map MiniBlock.hashHex)),
    ("txCount", .ofInt body.txHashes.length)]

def miniBlockDocument (header : Header) (m : MiniBlock) : Value :=
  let sent :=
    if m.sender = header.shard then
      [(senderBlockHash, Value.str header.hashHex), ("timestamp", .nat header.timestamp)]
    else []
  let received :=
    if m.receiver = header.shard then [(receiverBlockHash, Value.str header.hashHex)] else []
  .record ([("senderShard", .nat m.sender.toUInt64), ("receiverShard", .nat m.receiver.toUInt64),
    ("type", .str m.kind.label)] ++ sent ++ received)

def miniBlockWrites (header : Header) (body : Body) : List WriteItem :=
  (body.miniBlocks.filter fun m => m.sender == header.shard || m.receiver == header.shard).map
    fun m => ⟨m.hashHex, .upsert [.merge (miniBlockDocument header m)]⟩

/-- Takes back what a header wrote of a miniblock: the sender's document goes, the receiver only
withdraws its block hash. -/
def miniBlockRevert? (header : Header) (m : MiniBlock) : Option WriteItem :=
  if m.sender = header.shard then some ⟨m.hashHex, .delete⟩
  else if m.receiver = header.shard then some ⟨m.hashHex, .update [.unset receiverBlockHash]⟩
  else none

def miniBlockReverts (header : Header) (body : Body) : List WriteItem :=
  body.miniBlocks.filterMap (miniBlockRevert? header)

end ChainIndex
