import ChainIndex.Chain.Transaction
import ChainIndex.Transfer.Data

/-!
The documents of transactions and of smart contract results. The hash is the id of the document and
no field of it. Fee, gas used and status are not part of a transaction's record: every block that
knows of them writes them apart.
-/
namespace ChainIndex

structure TransactionRecord where
  hash : String := ""
  miniBlockHash : String := ""
  nonce : UInt64 := 0
  round : UInt64 := 0
  value : String := ""
  valueNum : Double := .zero
  receiver : String := ""
  sender : String := ""
  receiverShard : UInt32 := 0
  senderShard : UInt32 := 0
  gasPrice : UInt64 := 0
  gasLimit : UInt64 := 0
  initialPaidFee : String := ""
  data : String := ""
  signature : String := ""
  timestamp : UInt64 := 0
  searchOrder : UInt32 := 0
  hasScResults : Bool := false
  relayer : String := ""
  guardian : String := ""
  version : UInt32 := 0
  parsed : ParsedData := {}
deriving DecidableEq, Repr, Inhabited

structure ScResultRecord where
  hash : String := ""
  miniBlockHash : String := ""
  nonce : UInt64 := 0
  gasLimit : UInt64 := 0
  gasPrice : UInt64 := 0
  value : String := ""
  valueNum : Double := .zero
  sender : String := ""
  receiver : String := ""
  senderShard : UInt32 := 0
  receiverShard : UInt32 := 0
  relayer : String := ""
  relayedValue : String := ""
  code : String := ""
  data : String := ""
  prevTxHash : String := ""
  originTxHash : String := ""
  callType : String := ""
  returnMessage : String := ""
  originSender : String := ""
  timestamp : UInt64 := 0
  initialTxFee : String := ""
  parsed : ParsedData := {}
deriving DecidableEq, Repr, Inhabited

namespace TransactionRecord

def fieldNames : List String :=
  ["miniBlockHash", "nonce", "round", "value", "valueNum", "receiver", "sender", "receiverShard",
    "senderShard", "gasPrice", "gasLimit", "initialPaidFee", "data", "signature", "timestamp",
    "searchOrder", "hasScResults", "relayer", "guardian", "version"] ++ ParsedData.fieldNames

def toJson (r : TransactionRecord) : Json :=
  .obj <|
    [("miniBlockHash", .str r.miniBlockHash), ("nonce", .nat r.nonce.toNat),
      ("round", .nat r.round.toNat), ("value", .str r.value), ("valueNum", .double r.valueNum),
      ("receiver", .str r.receiver), ("sender", .str r.sender),
      ("receiverShard", .nat r.receiverShard.toNat), ("senderShard", .nat r.senderShard.toNat),
      ("gasPrice", .nat r.gasPrice.toNat), ("gasLimit", .nat r.gasLimit.toNat),
      ("initialPaidFee", .str r.initialPaidFee), ("data", .str r.data), ("signature", .str r.signature),
      ("timestamp", .nat r.timestamp.toNat), ("searchOrder", .nat r.searchOrder.toNat)] ++
    (if r.hasScResults then [("hasScResults", .bool true)] else []) ++
    Json.textField "relayer" r.relayer ++ Json.textField "guardian" r.guardian ++
    [("version", .nat r.version.toNat), ("operation", .str r.parsed.operation)] ++
    r.parsed.detailFields

def ofJson? (j : Json) : Option TransactionRecord := do
  let [miniBlockHash, nonce, round, value, valueNum, receiver, sender, receiverShard, senderShard,
    gasPrice, gasLimit, initialPaidFee, data, signature, timestamp, searchOrder, hasScResults, relayer,
    guardian, version, operation, function, tokens, values, receivers] ←
      j.record? fieldNames | none
  return {
    miniBlockHash := ← miniBlockHash.required? Json.str?
    nonce := ← nonce.required? Json.uint64?
    round := ← round.required? Json.uint64?
    value := ← value.required? Json.str?
    valueNum := ← valueNum.required? Json.double?
    receiver := ← receiver.required? Json.str?
    sender := ← sender.required? Json.str?
    receiverShard := ← receiverShard.required? Json.uint32?
    senderShard := ← senderShard.required? Json.uint32?
    gasPrice := ← gasPrice.required? Json.uint64?
    gasLimit := ← gasLimit.required? Json.uint64?
    initialPaidFee := ← initialPaidFee.required? Json.str?
    data := ← data.required? Json.str?
    signature := ← signature.required? Json.str?
    timestamp := ← timestamp.required? Json.uint64?
    searchOrder := ← searchOrder.required? Json.uint32?
    hasScResults := ← hasScResults.orElse? false Json.bool?
    relayer := ← relayer.orElse? "" Json.str?
    guardian := ← guardian.orElse? "" Json.str?
    version := ← version.required? Json.uint32?
    parsed := {
      operation := ← operation.required? Json.str?
      function := ← function.orElse? "" Json.str?
      tokens := ← tokens.orElse? [] Json.strings?
      values := ← values.orElse? [] Json.strings?
      receivers := ← receivers.orElse? [] Json.strings? } }

end TransactionRecord

namespace ScResultRecord

def fieldNames : List String :=
  ["miniBlockHash", "nonce", "gasLimit", "gasPrice", "value", "valueNum", "sender", "receiver",
    "senderShard", "receiverShard", "relayer", "relayedValue", "code", "data", "prevTxHash",
    "originalTxHash", "callType", "returnMessage", "originalSender", "timestamp", "initialTxFee"] ++
    ParsedData.fieldNames

def toJson (r : ScResultRecord) : Json :=
  .obj <|
    [("miniBlockHash", .str r.miniBlockHash), ("nonce", .nat r.nonce.toNat),
      ("gasLimit", .nat r.gasLimit.toNat), ("gasPrice", .nat r.gasPrice.toNat), ("value", .str r.value),
      ("valueNum", .double r.valueNum), ("sender", .str r.sender), ("receiver", .str r.receiver),
      ("senderShard", .nat r.senderShard.toNat), ("receiverShard", .nat r.receiverShard.toNat)] ++
    Json.textField "relayer" r.relayer ++ Json.textField "relayedValue" r.relayedValue ++
    Json.textField "code" r.code ++
    [("data", .str r.data), ("prevTxHash", .str r.prevTxHash), ("originalTxHash", .str r.originTxHash),
      ("callType", .str r.callType)] ++
    Json.textField "returnMessage" r.returnMessage ++ Json.textField "originalSender" r.originSender ++
    [("timestamp", .nat r.timestamp.toNat), ("initialTxFee", .str r.initialTxFee),
      ("operation", .str r.parsed.operation)] ++
    r.parsed.detailFields

def ofJson? (j : Json) : Option ScResultRecord := do
  let [miniBlockHash, nonce, gasLimit, gasPrice, value, valueNum, sender, receiver, senderShard,
    receiverShard, relayer, relayedValue, code, data, prevTxHash, originTxHash, callType,
    returnMessage, originSender, timestamp, initialTxFee, operation, function, tokens, values,
    receivers] ← j.record? fieldNames | none
  return {
    miniBlockHash := ← miniBlockHash.required? Json.str?
    nonce := ← nonce.required? Json.uint64?
    gasLimit := ← gasLimit.required? Json.uint64?
    gasPrice := ← gasPrice.required? Json.uint64?
    value := ← value.required? Json.str?
    valueNum := ← valueNum.required? Json.double?
    sender := ← sender.required? Json.str?
    receiver := ← receiver.required? Json.str?
    senderShard := ← senderShard.required? Json.uint32?
    receiverShard := ← receiverShard.required? Json.uint32?
    relayer := ← relayer.orElse? "" Json.str?
    relayedValue := ← relayedValue.orElse? "" Json.str?
    code := ← code.orElse? "" Json.str?
    data := ← data.required? Json.str?
    prevTxHash := ← prevTxHash.required? Json.str?
    originTxHash := ← originTxHash.required? Json.str?
    callType := ← callType.required? Json.str?
    returnMessage := ← returnMessage.orElse? "" Json.str?
    originSender := ← originSender.orElse? "" Json.str?
    timestamp := ← timestamp.required? Json.uint64?
    initialTxFee := ← initialTxFee.required? Json.str?
    parsed := {
      operation := ← operation.required? Json.str?
      function := ← function.orElse? "" Json.str?
      tokens := ← tokens.orElse? [] Json.strings?
      values := ← values.orElse? [] Json.strings?
      receivers := ← receivers.orElse? [] Json.strings? } }

end ScResultRecord
end ChainIndex
