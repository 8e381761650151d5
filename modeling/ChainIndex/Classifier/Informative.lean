import ChainIndex.Event.Outcome

/-!
Signals that a transaction completed or failed. They concern the transaction that the log belongs to
in the end.
-/
namespace ChainIndex
namespace Classify

def signalOf? : EventName → Option StatusInfo
  | .completedTx | .writeLog => some .ofCompletion
  | .signalError | .internalVmErrors => some .ofFailure
  | _ => none

def informative (name : EventName) (_event : Event) (ctx : EventContext) : Outcome :=
  match signalOf? name with
  | some signal => .single (.status ctx.originTxHash signal)
  | none => .notApplicable

end Classify
end ChainIndex
