import ChainIndex.Json.Slots
import ChainIndex.Bytes.Hex

/-!
Transactions and smart contract results as a block's pool holds them.
-/
namespace ChainIndex

structure Transaction where
  nonce : UInt64 := 0
  value : Amount := .zero
  receiver : Bytes := []
  sender : Bytes := []
  gasPrice : UInt64 := 0
  gasLimit : UInt64 := 0
  data : Bytes := []
  signature : Bytes := []
  relayer : Bytes := []
  guardian : Bytes := []
  version : UInt32 := 0
deriving DecidableEq, Repr, Inhabited

structure FeeInfo where
  gasUsed : UInt64 := 0
  fee : Amount := .zero
  initialPaidFee : Amount := .zero
  gasRefunded : UInt64 := 0
deriving DecidableEq, Repr, Inhabited

structure TxInfo where
  transaction : Transaction := {}
  feeInfo : FeeInfo := {}
  executionOrder : UInt32 := 0
deriving DecidableEq, Repr, Inhabited

structure ScResult where
  nonce : UInt64 := 0
  value : Amount := .zero
  receiver : Bytes := []
  sender : Bytes := []
  relayer : Bytes := []
  relayedValue : Amount := .zero
  code : Bytes := []
  data : Bytes := []
  prevTxHash : Bytes := []
  originTxHash : Bytes := []
  gasLimit : UInt64 := 0
  gasPrice : UInt64 := 0
  callType : UInt32 := 0
  returnMessage : Bytes := []
  originSender : Bytes := []
deriving DecidableEq, Repr, Inhabited

structure ScResultInfo where
  result : ScResult := {}
  feeInfo : FeeInfo := {}
  executionOrder : UInt32 := 0
deriving DecidableEq, Repr, Inhabited

def ScResult.originHash (r : ScResult) : String :=
  if r.originTxHash.isEmpty then r.prevTxHash.hex else r.originTxHash.hex

namespace Transaction

def fieldNames : List String :=
  ["nonce", "value", "receiver", "sender", "gas_price", "gas_limit", "data", "signature", "relayer",
    "guardian", "version"]

def toJson (t : Transaction) : Json :=
  .obj [("nonce", .nat t.nonce.toNat), ("value", .nat t.value.units),
    ("receiver", .octets t.receiver), ("sender", .octets t.sender),
    ("gas_price", .nat t.gasPrice.toNat), ("gas_limit", .nat t.gasLimit.toNat),
    ("data", .octets t.data), ("signature", .octets t.signature), ("relayer", .octets t.relayer),
    ("guardian", .octets t.guardian), ("version", .nat t.version.toNat)]

def ofJson? (j : Json) : Option Transaction := do
  let [nonce, value, receiver, sender, gasPrice, gasLimit, data, signature, relayer, guardian,
    version] ← j.record? fieldNames | none
  return {
    nonce := ← nonce.required? Json.uint64?
    value := ← value.required? Json.amount?
    receiver := ← receiver.required? Json.octets?
    sender := ← sender.required? Json.octets?
    gasPrice := ← gasPrice.required? Json.uint64?
    gasLimit := ← gasLimit.required? Json.uint64?
    data := ← data.required? Json.octets?
    signature := ← signature.required? Json.octets?
    relayer := ← relayer.required? Json.octets?
    guardian := ← guardian.required? Json.octets?
    version := ← version.required? Json.uint32? }

end Transaction

namespace FeeInfo

def fieldNames : List String := ["gas_used", "fee", "initial_paid_fee", "gas_refunded"]

def toJson (f : FeeInfo) : Json :=
  .obj [("gas_used", .nat f.gasUsed.toNat), ("fee", .nat f.fee.units),
    ("initial_paid_fee", .nat f.initialPaidFee.units), ("gas_refunded", .nat f.gasRefunded.toNat)]

def ofJson? (j : Json) : Option FeeInfo := do
  let [gasUsed, fee, initialPaidFee, gasRefunded] ← j.record? fieldNames | none
  return {
    gasUsed := ← gasUsed.required? Json.uint64?
    fee := ← fee.required? Json.amount?
    initialPaidFee := ← initialPaidFee.required? Json.amount?
    gasRefunded := ← gasRefunded.required? Json.uint64? }

end FeeInfo

namespace TxInfo

def fieldNames : List String := ["transaction", "fee_info", "execution_order"]

def toJson (t : TxInfo) : Json :=
  .obj [("transaction", t.transaction.toJson), ("fee_info", t.feeInfo.toJson),
    ("execution_order", .nat t.executionOrder.toNat)]

def ofJson? (j : Json) : Option TxInfo := do
  let [transaction, feeInfo, executionOrder] ← j.record? fieldNames | none
  return {
    transaction := ← transaction.required? Transaction.ofJson?
    feeInfo := ← feeInfo.required? FeeInfo.ofJson?
    executionOrder := ← executionOrder.required? Json.uint32? }

end TxInfo

namespace ScResult

def fieldNames : List String :=
  ["nonce", "value", "receiver", "sender", "relayer", "relayed_value", "code", "data",
    "prev_tx_hash", "original_tx_hash", "gas_limit", "gas_price", "call_type", "return_message",
    "original_sender"]

def toJson (r : ScResult) : Json :=
  .obj [("nonce", .nat r.nonce.toNat), ("value", .nat r.value.units),
    ("receiver", .octets r.receiver), ("sender", .octets r.sender), ("relayer", .octets r.relayer),
    ("relayed_value", .nat r.relayedValue.units), ("code", .octets r.code), ("data", .octets r.data),
    ("prev_tx_hash", .octets r.prevTxHash), ("original_tx_hash", .octets r.originTxHash),
    ("gas_limit", .nat r.gasLimit.toNat), ("gas_price", .nat r.gasPrice.toNat),
    ("call_type", .nat r.callType.toNat), ("return_message", .octets r.returnMessage),
    ("original_sender", .octets r.originSender)]

def ofJson? (j : Json) : Option ScResult := do
  let [nonce, value, receiver, sender, relayer, relayedValue, code, data, prevTxHash,
    originTxHash, gasLimit, gasPrice, callType, returnMessage, originSender] ←
      j.record? fieldNames | none
  return {
    nonce := ← nonce.required? Json.uint64?
    value := ← value.required? Json.amount?
    receiver := ← receiver.required? Json.octets?
    sender := ← sender.required? Json.octets?
    relayer := ← relayer.required? Json.octets?
    relayedValue := ← relayedValue.required? Json.amount?
    code := ← code.required? Json.octets?
    data := ← data.required? Json.octets?
    prevTxHash := ← prevTxHash.required? Json.octets?
    originTxHash := ← originTxHash.required? Json.octets?
    gasLimit := ← gasLimit.required? Json.uint64?
    gasPrice := ← gasPrice.required? Json.uint64?
    callType := ← callType.required? Json.uint32?
    returnMessage := ← returnMessage.required? Json.octets?
    originSender := ← originSender.required? Json.octets? }

end ScResult

namespace ScResultInfo

def fieldNames : List String := ["scr", "fee_info", "execution_order"]

def toJson (r : ScResultInfo) : Json :=
  .obj [("scr", r.result.toJson), ("fee_info", r.feeInfo.toJson),
    ("execution_order", .nat r.executionOrder.toNat)]

def ofJson? (j : Json) : Option ScResultInfo := do
  let [result, feeInfo, executionOrder] ← j.record? fieldNames | none
  return {
    result := ← result.required? ScResult.ofJson?
    feeInfo := ← feeInfo.required? FeeInfo.ofJson?
    executionOrder := ← executionOrder.required? Json.uint32? }

end ScResultInfo
end ChainIndex
