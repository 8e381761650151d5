import ChainIndex.Json.Slots

/-!
Execution status of transactions, and the latch that merges the signals about one of them.
-/
namespace ChainIndex

inductive TxStatus where
  | success
  | pending
  | fail
  | invalid
deriving DecidableEq, Repr

namespace TxStatus

def label : TxStatus → String
  | success => "success"
  | pending => "pending"
  | fail => "fail"
  | invalid => "invalid"

def all : List TxStatus := [success, pending, fail, invalid]

def ofLabel? (text : String) : Option TxStatus := all.find? (·.label == text)

end TxStatus

/-- What is known about the outcome of a transaction: whether it completed, whether it failed, and
its status label. -/
structure StatusInfo where
  completed : Bool := false
  failed : Bool := false
  status : String := ""
deriving DecidableEq, Repr, Inhabited

namespace StatusInfo

def ofCompletion : StatusInfo := ⟨true, false, TxStatus.success.label⟩

def ofFailure : StatusInfo := ⟨false, true, TxStatus.fail.label⟩

/-- Merges a signal into what is known. Flags only rise; once a failure is known only another
failure may change the label. -/
def latch (known signal : StatusInfo) : StatusInfo where
  completed := known.completed || signal.completed
  failed := known.failed || signal.failed
  status := if signal.failed || !known.failed then signal.status else known.status

def fieldNames : List String := ["completedEvent", "errorEvent", "status"]

def toJson (s : StatusInfo) : Json :=
  .obj [("completedEvent", .bool s.completed), ("errorEvent", .bool s.failed), ("status", .str s.status)]

def ofJson? (j : Json) : Option StatusInfo := do
  let [completed, failed, status] ← j.record? fieldNames | none
  return {
    completed := ← completed.orElse? false Json.bool?
    failed := ← failed.orElse? false Json.bool?
    status := ← status.orElse? "" Json.str? }

end StatusInfo
end ChainIndex
