import ChainIndex.Accumulator.Block
import ChainIndex.Classifier.Basic
import ChainIndex.Chain.Block
import ChainIndex.Counters

/-!
Dispatch of a block's events. Each event goes to the first classifier that takes it, and its deltas
are gathered in the order of logs and events.
-/
namespace ChainIndex

inductive EventStat where
  | seen
  | processed
  /-- Taken, but without a delta. -/
  | swallowed
  | unclaimed
deriving DecidableEq, Repr

instance : CounterKind EventStat where
  all := [.seen, .processed, .swallowed, .unclaimed]
  name
    | .seen => "events"
    | .processed => "events_processed"
    | .swallowed => "events_swallowed"
    | .unclaimed => "events_unclaimed"

structure Registry where
  classifiers : List Classifier := Classifier.standard
  codec : AddressFormat := AddressCodec.format {}
  metadata : MetadataCodec := .json
  denomination : Denomination := ⟨18⟩
  shard : UInt32 := 0

namespace Registry

def dispatch (r : Registry) (event : Event) (ctx : EventContext) : Option (List Delta) :=
  r.classifiers.findSome? fun c => (c.classify event ctx).deltas?

/-- The transaction that a log belongs to in the end: a result of the same pool names it. -/
def originHash (pool : Pool) (log : Log) : String :=
  match pool.scResults.find? log.txHash with
  | some info => info.result.originHash
  | none => log.txHash

def context (r : Registry) (pool : Pool) (timestamp : UInt64) (log : Log) : EventContext where
  codec := r.codec
  metadata := r.metadata
  txHash := log.txHash
  originTxHash := originHash pool log
  logAddress := log.address
  timestamp := timestamp
  shard := r.shard
  denomination := r.denomination

def answers (r : Registry) (pool : Pool) (timestamp : UInt64) : List (Option (List Delta)) :=
  pool.logs.flatMap fun log => log.events.map (r.dispatch · (r.context pool timestamp log))

def statOf : Option (List Delta) → EventStat
  | some [] => .swallowed
  | some _ => .processed
  | none => .unclaimed

def processLogs (r : Registry) (pool : Pool) (timestamp : UInt64) : BlockAccumulators :=
  (r.answers pool timestamp).foldl (fun acc answer => acc.addAll (answer.getD [])) {}

def countLogs (r : Registry) (pool : Pool) (timestamp : UInt64) (stats : Counters EventStat) :
    Counters EventStat :=
  (r.answers pool timestamp).foldl
    (fun stats answer => (stats.increment .seen).increment (statOf answer)) stats

end Registry
end ChainIndex
