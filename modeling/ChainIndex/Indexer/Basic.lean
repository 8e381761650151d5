import ChainIndex.Config.Basic
import ChainIndex.Correlation.Writes
import ChainIndex.Event.Dispatch
import ChainIndex.Indexer.Balance
import ChainIndex.Indexer.Batch
import ChainIndex.Indexer.Rollback
import ChainIndex.Indexer.TokenWrites

/-!
The indexer of one shard: it saves blocks to a store and reverts them, and counts what it did.
-/
namespace ChainIndex

inductive IndexerStat where
  | blocksSaved
  | blocksReverted
  | documentsWritten
  | recordsSkipped
deriving DecidableEq, Repr

instance : CounterKind IndexerStat where
  all := [.blocksSaved, .blocksReverted, .documentsWritten, .recordsSkipped]
  name
    | .blocksSaved => "blocks_saved"
    | .blocksReverted => "blocks_reverted"
    | .documentsWritten => "documents_written"
    | .recordsSkipped => "records_skipped"

inductive Collaborator where
  | store
  | addressCodec
  | metadataCodec
deriving DecidableEq, Repr

def Collaborator.label : Collaborator → String
  | .store => "document store"
  | .addressCodec => "address codec"
  | .metadataCodec => "metadata codec"

inductive IndexerError where
  | store (cause : StoreError)
  | config (cause : ConfigError)
  | missing (collaborator : Collaborator)
  | rollback (cause : RollbackError)
deriving DecidableEq, Repr

def IndexerError.message : IndexerError → String
  | .store cause => "store error: " ++ cause.message
  | .config cause => cause.message
  | .missing collaborator => "missing collaborator: " ++ collaborator.label
  | .rollback cause => cause.message

structure Indexer where
  config : Config := {}
  codec : AddressFormat := AddressCodec.format {}
  metadata : MetadataCodec := .json
  events : Counters EventStat := .start
  stats : Counters IndexerStat := .start

namespace Indexer

def build (config : Config) (store : Option Store) (addressCodec : Option AddressFormat)
    (metadataCodec : Option MetadataCodec) : Except IndexerError (Indexer × Store) :=
  match config.validate, store, addressCodec, metadataCodec with
  | .error cause, _, _, _ => .error (.config cause)
  | .ok _, none, _, _ => .error (.missing .store)
  | .ok _, some _, none, _ => .error (.missing .addressCodec)
  | .ok _, some _, some _, none => .error (.missing .metadataCodec)
  | .ok _, some store, some codec, some metadata => .ok ({ config, codec, metadata }, store)

def denomination (ix : Indexer) : Denomination := ⟨ix.config.denomination⟩

def registry (ix : Indexer) : Registry where
  codec := ix.codec
  metadata := ix.metadata
  denomination := ix.denomination
  shard := ix.config.shard

def correlator (ix : Indexer) : Correlator where
  codec := ix.codec
  denomination := ix.denomination
  shard := ix.config.shard

def balanceWriter (ix : Indexer) (header : Header) : BalanceWriter where
  codec := ix.codec
  denomination := ix.denomination
  timestamp := header.timestamp
  shard := header.shard

def accumulate (ix : Indexer) (block : Block) : BlockAccumulators :=
  ix.registry.processLogs block.pool block.header.timestamp

def recordWrites (ix : Indexer) (block : Block) : RecordWrites :=
  (ix.correlator.correlate block.header block.body block.pool (ix.accumulate block).statuses).writes

def batch (ix : Indexer) (block : Block) (tokens : List WriteItem) : WriteBatch :=
  let acc := ix.accumulate block
  let records := ix.recordWrites block
  (({} : WriteBatch).extend Index.transactions records.transactions)
    |>.extend Index.scResults records.scResults
    |>.extend Index.operations records.operations
    |>.extend Index.tokens tokens
    |>.extend Index.delegators acc.delegatorWrites
    |>.extend Index.deploys acc.contractWrites
    |>.extend Index.balances ((ix.balanceWriter block.header).writes block.accounts)
    |>.push Index.blocks (blockWrite block.header block.body)
    |>.extend Index.miniBlocks (miniBlockWrites block.header block.body)

def save (ix : Indexer) (block : Block) : Session (Except StoreError FlushReport) := do
  match ← (TokenWrites.tokenWrites (ix.accumulate block)).run with
  | .error e => return .error e
  | .ok tokens => Flush.flush ix.config.bulkLimit.toNat (ix.batch block tokens)

def countSaved (ix : Indexer) (block : Block) (outcome : Except StoreError FlushReport) : Indexer :=
  let events := ix.registry.countLogs block.pool block.header.timestamp ix.events
  match outcome with
  | .error _ => { ix with events }
  | .ok report =>
    let stats := ((ix.stats.increment .blocksSaved).add .documentsWritten report.total.toUInt64)
      |>.add .recordsSkipped report.skipped.length.toUInt64
    { ix with events, stats }

/-- Saves a block. The first failure of the store is the answer. -/
def saveBlock (ix : Indexer) (block : Block) (store : Store) :
    Except IndexerError FlushReport × Indexer × Store :=
  let (outcome, after) := (ix.save block).run store
  (outcome.mapError .store, ix.countSaved block outcome, after)

def revertBlock (ix : Indexer) (header : Header) (body : Body) (store : Store) :
    Except IndexerError Unit × Indexer × Store :=
  let (outcome, after) := (Rollback.revertBlock ix.denomination header body).run store
  match outcome with
  | .ok _ => (.ok (), { ix with stats := ix.stats.increment .blocksReverted }, after)
  | .error e => (.error (.rollback e), ix, after)

def removeBalances (timestamp : UInt64) (shard : UInt32) (store : Store) :
    Except IndexerError Nat × Store :=
  let (outcome, after) := (Rollback.removeBalances timestamp shard).run.run store
  (outcome.mapError .store, after)

end Indexer
end ChainIndex
