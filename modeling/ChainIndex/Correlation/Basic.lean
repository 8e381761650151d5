import ChainIndex.Chain.Block
import ChainIndex.Correlation.Record
import ChainIndex.Write.Fee
import ChainIndex.Status

/-!
Correlation of transactions with their smart contract results. A block holds transactions, results
of transactions executed elsewhere, or both. Results are grouped by the transaction they belong to:
refunds of a transaction in the block are taken off its fee at once, all others wait for whatever the
store holds of their transaction.
-/
namespace ChainIndex

inductive PassStatus where
  /-- Sent from here, executed on another shard. -/
  | pending
  | executed
  /-- Part of an invalid miniblock. -/
  | invalid
deriving DecidableEq, Repr

def PassStatus.signal? : PassStatus → Option StatusInfo
  | pending => none
  | executed => some ⟨false, false, TxStatus.success.label⟩
  | invalid => some ⟨false, true, TxStatus.invalid.label⟩

/-- A transaction that the block holds; the fee is an absolute one, and the signal is that of the
block's logs. -/
structure CorrelatedTx where
  record : TransactionRecord
  fee : FeeWrite
  status : PassStatus
  signal : Option StatusInfo
deriving DecidableEq, Repr

structure ForeignUpdate where
  hasScResults : Bool := false
  /-- By the hash of the refunding result. -/
  refunds : Dict Refund := []
  signal : Option StatusInfo := none
deriving DecidableEq, Repr, Inhabited

structure CorrelatedBlock where
  transactions : List CorrelatedTx := []
  scResults : List ScResultRecord := []
  /-- By the hash of the transaction. -/
  foreign : Dict ForeignUpdate := []
  denomination : Denomination := ⟨18⟩
deriving DecidableEq, Repr

structure Correlator where
  codec : AddressFormat := AddressCodec.format {}
  denomination : Denomination := ⟨18⟩
  shard : UInt32 := 0
deriving Inhabited

namespace ScResultInfo

/-- The data of a result that returns unused gas: an at sign and `ok` in hexadecimal. -/
def refundData : Bytes := Utf8.encode "@6f6b"

def refund? (info : ScResultInfo) : Option Refund :=
  let data := info.result.data
  if 0 < info.feeInfo.gasRefunded ∨
      (0 < info.feeInfo.fee.units ∧ (data.isEmpty ∨ data = refundData)) then
    some ⟨info.feeInfo.fee, info.feeInfo.gasRefunded⟩
  else none

end ScResultInfo

/-- The miniblock of every hash of a body; of several the last counts. -/
def Body.miniBlockOf (body : Body) : Dict MiniBlock :=
  Dict.ofList (body.miniBlocks.flatMap fun m => m.txHashes.map fun hash => (hash.hex, m))

def Pool.refunds (pool : Pool) : Dict (Dict Refund) :=
  pool.scResults.foldl (fun all (hash, info) =>
    match info.refund? with
    | some refund => all.alter info.result.originHash fun known => (known.getD []).insert hash refund
    | none => all) []

def Pool.origins (pool : Pool) : List String := pool.scResults.map fun (_, info) => info.result.originHash

namespace Correlator

/-- The fee of a transaction, less the refunds that came with it. What was paid at first counts
before what was charged. -/
def absoluteFee (c : Correlator) (info : TxInfo) (refunds : Dict Refund) : FeeWrite :=
  let (fee, gas) :=
    if 0 < info.feeInfo.initialPaidFee.units then
      (info.feeInfo.initialPaidFee, info.transaction.gasLimit)
    else (info.feeInfo.fee, info.feeInfo.gasUsed)
  let (refunded, refundedGas) := Fee.total refunds.values
  .absolute (fee - refunded) (Saturating.sub gas refundedGas) refunds c.denomination

def passStatus (c : Correlator) : Option MiniBlock → PassStatus
  | some m =>
    if m.kind = .invalid then .invalid
    else if m.sender ≠ m.receiver ∧ m.sender = c.shard then .pending
    else .executed
  | none => .executed

/-- The sending and the receiving shard; without a miniblock both are this one. -/
def shards (c : Correlator) : Option MiniBlock → UInt32 × UInt32
  | some m => (m.sender, m.receiver)
  | none => (c.shard, c.shard)

def txRecord (c : Correlator) (hash : String) (info : TxInfo) (header : Header) (m : Option MiniBlock)
    (hasScResults : Bool) : TransactionRecord :=
  let tx := info.transaction
  { hash
    miniBlockHash := (m.map MiniBlock.hashHex).getD ""
    nonce := tx.nonce
    round := header.round
    value := tx.value.text
    valueNum := c.denomination.toDouble tx.value
    receiver := c.codec.encodeOrEmpty tx.receiver
    sender := c.codec.encodeOrEmpty tx.sender
    receiverShard := (c.shards m).2
    senderShard := (c.shards m).1
    gasPrice := tx.gasPrice
    gasLimit := tx.gasLimit
    initialPaidFee := info.feeInfo.initialPaidFee.text
    data := tx.data.toField
    signature := tx.signature.hex
    timestamp := header.timestamp
    searchOrder := info.executionOrder
    hasScResults
    relayer := c.codec.encodeOrEmpty tx.relayer
    guardian := c.codec.encodeOrEmpty tx.guardian
    version := tx.version
    parsed := TransferData.parse c.codec tx.data tx.sender tx.receiver }

def scResultRecord (c : Correlator) (hash : String) (info : ScResultInfo) (header : Header)
    (m : Option MiniBlock) : ScResultRecord :=
  let r := info.result
  { hash
    miniBlockHash := (m.map MiniBlock.hashHex).getD ""
    nonce := r.nonce
    gasLimit := r.gasLimit
    gasPrice := r.gasPrice
    value := r.value.text
    valueNum := c.denomination.toDouble r.value
    sender := c.codec.encodeOrEmpty r.sender
    receiver := c.codec.encodeOrEmpty r.receiver
    senderShard := (c.shards m).1
    receiverShard := (c.shards m).2
    relayer := c.codec.encodeOrEmpty r.relayer
    relayedValue := if 0 < r.relayedValue.units then r.relayedValue.text else ""
    code := r.code.toField
    data := r.data.toField
    prevTxHash := r.prevTxHash.hex
    originTxHash := r.originHash
    callType := toString r.callType
    returnMessage := r.returnMessage.toField
    originSender := c.codec.encodeOrEmpty r.originSender
    timestamp := header.timestamp
    initialTxFee := info.feeInfo.fee.text
    parsed := TransferData.parse c.codec r.data r.sender r.receiver }

def foreign (pool : Pool) (signals : Dict StatusInfo) : Dict ForeignUpdate :=
  let isForeign (hash : String) : Bool := !pool.transactions.has hash
  let change (all : Dict ForeignUpdate) (hash : String) (f : ForeignUpdate → ForeignUpdate) :=
    if isForeign hash then all.alter hash fun u => f (u.getD {}) else all
  let all := pool.origins.foldl
    (fun all hash => change all hash fun u => { u with hasScResults := true }) []
  let all := pool.refunds.foldl
    (fun all (hash, refunds) => change all hash fun u => { u with refunds }) all
  signals.foldl (fun all (hash, signal) => change all hash fun u => { u with signal := some signal }) all

def correlate (c : Correlator) (header : Header) (body : Body) (pool : Pool)
    (signals : Dict StatusInfo) : CorrelatedBlock :=
  let miniBlocks := body.miniBlockOf
  let refunds := pool.refunds
  let origins := pool.origins
  { transactions := pool.transactions.map fun (hash, info) =>
      let m := miniBlocks.find? hash
      { record := c.txRecord hash info header m (origins.contains hash)
        fee := c.absoluteFee info ((refunds.find? hash).getD [])
        status := c.passStatus m
        signal := signals.find? hash }
    scResults := pool.scResults.map fun (hash, info) =>
      c.scResultRecord hash info header (miniBlocks.find? hash)
    foreign := foreign pool signals
    denomination := c.denomination }

end Correlator
end ChainIndex
