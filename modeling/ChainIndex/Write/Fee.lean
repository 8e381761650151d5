import ChainIndex.Document.Path
import ChainIndex.Denomination
import ChainIndex.Write.Tagged

/-!
The fee ledger of a transaction document. Every refund the document has seen is kept under the
result that brought it, so fee writes may be repeated and may arrive in any order: the fee is what
the transaction's own block charged, less the refunds that block did not know.
-/
namespace ChainIndex

structure Refund where
  fee : Amount := .zero
  gasRefunded : UInt64 := 0
deriving DecidableEq, Repr, Inhabited

inductive FeeWrite where
  /-- The fee as the transaction's own block has it, `refunds` already taken off. -/
  | absolute (fee : Amount) (gasUsed : UInt64) (refunds : Dict Refund) (denomination : Denomination)
  /-- A refund seen without its transaction. -/
  | relativeAdjust (refundId : String) (refund : Refund) (denomination : Denomination)
  /-- Takes a refund back. -/
  | revertRefund (refundId : String) (denomination : Denomination)
deriving DecidableEq, Repr

namespace Fee

def refundsField : String := "feeRefunds"
def feeField : String := "fee"
def feeNumField : String := "feeNum"
def gasUsedField : String := "gasUsed"

def refundOfValue (v : Value) : Refund where
  fee := ((v.get? "fee").bind Value.text? |>.bind Amount.ofText?).getD .zero
  gasRefunded := ((v.get? "gasRefunded").bind Value.nat?).getD 0

def refundToValue (r : Refund) : Value :=
  .record [("fee", .str r.fee.text), ("gasRefunded", .nat r.gasRefunded)]

def storedRefunds (doc : Value) : Dict Refund :=
  match doc.get? refundsField with
  | some (.obj refunds) => refunds.map fun (id, v) => (id, refundOfValue v)
  | _ => []

def refundsValue (refunds : Dict Refund) : Value :=
  .obj (refunds.map fun (id, r) => (id, refundToValue r))

def setFee (fee : Amount) (d : Denomination) (doc : Value) : Value :=
  (doc.set feeField (.str fee.text)).set feeNumField (.double (d.toDouble fee))

def setRefunds (refunds : Dict Refund) (doc : Value) : Value :=
  if refunds.isEmpty then .obj (Dict.erase doc.fieldsOrEmpty refundsField)
  else doc.set refundsField (refundsValue refunds)

def adjust (onFee : Amount → Amount) (onGas : UInt64 → UInt64) (d : Denomination) (doc : Value) : Value :=
  let doc :=
    match (doc.get? feeField).bind Value.text? |>.bind Amount.ofText? with
    | some fee => setFee (onFee fee) d doc
    | none => doc
  match (doc.get? gasUsedField).bind Value.nat? with
  | some gas => doc.set gasUsedField (.nat (onGas gas))
  | none => doc

def total (refunds : List Refund) : Amount × UInt64 :=
  refunds.foldl (fun (fee, gas) r => (fee + r.fee, Saturating.add gas r.gasRefunded)) (.zero, 0)

end Fee

namespace FeeWrite

open Fee

def apply (write : FeeWrite) (doc : Value) : Value :=
  let stored := storedRefunds doc
  match write with
  | absolute fee gasUsed refunds d =>
    let foreign := stored.filter fun (id, _) => !refunds.has id
    let (foreignFee, foreignGas) := total (Dict.values foreign)
    let kept := stored.extend refunds
    let doc := setFee (fee - foreignFee) d doc
    let doc := doc.set gasUsedField (.nat (Saturating.sub gasUsed foreignGas))
    if kept.isEmpty then doc else doc.set refundsField (refundsValue kept)
  | relativeAdjust id refund d =>
    if stored.has id then doc
    else
      adjust (· - refund.fee) (Saturating.sub · refund.gasRefunded) d
        (doc.set refundsField (refundsValue (stored.insert id refund)))
  | revertRefund id d =>
    match stored.find? id with
    | some refund =>
      adjust (· + refund.fee) (Saturating.add · refund.gasRefunded) d (setRefunds (stored.erase id) doc)
    | none => doc

end FeeWrite

namespace Refund

def toJson (r : Refund) : Json :=
  .obj [("fee", .str r.fee.text), ("gasRefunded", .nat r.gasRefunded.toNat)]

def ofJson? (j : Json) : Option Refund := do
  let [fee, gasRefunded] ← j.record? ["fee", "gasRefunded"] | none
  return {
    fee := ← fee.required? Json.amountText?
    gasRefunded := ← gasRefunded.required? Json.uint64? }

end Refund

namespace FeeWrite

inductive Mode where
  | absolute
  | relativeAdjust
  | revertRefund
deriving DecidableEq, Repr

def Mode.label : Mode → String
  | absolute => "absolute"
  | relativeAdjust => "relativeAdjust"
  | revertRefund => "revertRefund"

def Mode.all : List Mode := [.absolute, .relativeAdjust, .revertRefund]

def Mode.ofJson? (held : Bool) (j : Json) : Option Mode := do
  let name ← j.headTag? (Mode.all.map Mode.label) held
  Mode.all.find? (·.label == name)

def denomination? (j : Json) : Option Denomination := j.uint32?.map Denomination.mk

def toJson : FeeWrite → Json
  | absolute fee gasUsed refunds d =>
    .obj [("mode", .str Mode.absolute.label), ("fee", .str fee.text), ("gas_used", .nat gasUsed.toNat),
      ("refunds", .obj (refunds.map fun (id, r) => (id, r.toJson))),
      ("denomination", .nat d.places.toNat)]
  | relativeAdjust id refund d =>
    .obj [("mode", .str Mode.relativeAdjust.label), ("refund_id", .str id), ("refund", refund.toJson),
      ("denomination", .nat d.places.toNat)]
  | revertRefund id d =>
    .obj [("mode", .str Mode.revertRefund.label), ("refund_id", .str id),
      ("denomination", .nat d.places.toNat)]

def ofFields? (mode : Mode) (j : Json) : Option FeeWrite :=
  match mode with
  | .absolute => do
    let [fee, gasUsed, refunds, d] ← j.record? ["fee", "gas_used", "refunds", "denomination"] | none
    return absolute (← fee.required? Json.amountText?) (← gasUsed.required? Json.uint64?)
      (← refunds.required? (Json.dict? Refund.ofJson?)) (← d.required? denomination?)
  | .relativeAdjust => do
    let [id, refund, d] ← j.record? ["refund_id", "refund", "denomination"] | none
    return relativeAdjust (← id.required? Json.str?) (← refund.required? Refund.ofJson?)
      (← d.required? denomination?)
  | .revertRefund => do
    let [id, d] ← j.record? ["refund_id", "denomination"] | none
    return revertRefund (← id.required? Json.str?) (← d.required? denomination?)

/-- Reads a fee write, which may be `held` back as a whole: an object with its mode among the fields,
or an array that begins with it. The fields are held back in any case until the mode is known, so all
of them must be readable. -/
def ofJson? (held : Bool) (room : Nat) (j : Json) : Option FeeWrite :=
  if j.readable room then
    match j with
    | .arr (mode :: rest) => do ofFields? (← Mode.ofJson? held mode) (.arr rest)
    | .obj members => do
      let mode ← (← Json.slot? members "mode").required? (Mode.ofJson? held)
      ofFields? mode j
    | _ => none
  else none

end FeeWrite
end ChainIndex
