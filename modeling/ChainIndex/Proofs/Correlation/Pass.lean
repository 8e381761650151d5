import ChainIndex.Event.Dispatch
import ChainIndex.Proofs.Correlation.Effect
import ChainIndex.Proofs.Correlation.Writes
import ChainIndex.Proofs.Event.Signals

/-!
Passes: the blocks in which a transaction turns up, each on its own shard. A transaction is sent by
one, executed by another, and any number of others bring results or logs of it.
-/
namespace ChainIndex

/-- A block as one shard sees it. -/
structure Pass where
  shard : UInt32
  header : Header
  body : Body
  pool : Pool

structure Setting where
  codec : AddressFormat
  denomination : Denomination
  classifiers : List Classifier := Classifier.standard
  metadata : MetadataCodec := .json

namespace Setting

variable (k : Setting) (p : Pass) (h : String)

def correlator : Correlator := ⟨k.codec, k.denomination, p.shard⟩

def signals : Dict StatusInfo :=
  (Registry.processLogs ⟨k.classifiers, k.codec, k.metadata, k.denomination, p.shard⟩ p.pool p.header.timestamp).statuses

def writes : RecordWrites := ((k.correlator p).correlate p.header p.body p.pool (k.signals p)).writes

def changes? : Option (List Mutation) := (k.correlator p).changes? p.header p.body p.pool (k.signals p) h

theorem sorted_signals : (k.signals p).Sorted := (Registry.plain_processLogs _ p.pool _).1

theorem plain_signals {signal : StatusInfo} (hs : (k.signals p).find? h = some signal) :
    ∃ c f, signal = .ofFlags c f :=
  (Registry.plain_processLogs _ p.pool _).2 h signal hs

end Setting

namespace Pass

variable (h : String) (p : Pass)

def info? : Option TxInfo := p.pool.transactions.find? h

def status : PassStatus := Correlator.passStatus { shard := p.shard } (p.body.miniBlockOf.find? h)

def entry : Option (Bytes × UInt32 × UInt32 × MiniBlockKind) :=
  (p.body.miniBlockOf.find? h).map fun m => (m.hash, m.sender, m.receiver, m.kind)

def executes : Bool := (p.info? h).isSome && p.status h = .executed

def sends : Bool := (p.info? h).isSome && p.status h = .pending

def marks : Bool := p.pool.origins.contains h

variable (k : Setting)

def latches : Bool := p.executes h || (k.signals p).has h

def completes : Bool := ((k.signals p).find? h).any (·.completed)

def fails : Bool := ((k.signals p).find? h).any (·.failed)

def touches : Bool := (p.info? h).isSome || p.marks h || (k.signals p).has h

/-- The record that the block writes, without its mark. -/
def record : Option TransactionRecord := (p.info? h).map fun info =>
  (k.correlator p).txRecord h info p.header (p.body.miniBlockOf.find? h) false

def field (key : String) : Option Value := (p.record h k).bind (·.toJson.toValue.get? key)

theorem changes?_of_info? {info : TxInfo} (hi : p.info? h = some info) :
    k.changes? p h =
      some ((k.correlator p).correlatedTx p.header p.body p.pool (k.signals p) h info).mutations := by
  unfold Setting.changes? Correlator.changes?
  rw [show p.pool.transactions.find? h = some info from hi]

/-- A pass without the transaction adds to it what its results and its logs say. -/
theorem changes?_of_not_held (hi : p.info? h = none) :
    k.changes? p h =
      if p.touches h k then
        some (ForeignUpdate.mutations k.denomination ⟨p.marks h, p.pool.refundsOf h, (k.signals p).find? h⟩)
      else none := by
  unfold Setting.changes? Correlator.changes? touches marks
  rw [show p.pool.transactions.find? h = none from hi, hi]
  simp [Setting.correlator]

/-- A record of the block has the fields of the record without a mark, and the mark. -/
theorem get?_correlatedTx {info : TxInfo} (hi : p.info? h = some info) (key : String) :
    ((k.correlator p).correlatedTx p.header p.body p.pool
        (k.signals p) h info).record.toJson.toValue.get? key =
      if key = Rollback.hasScResults then (if p.marks h then some (.bool true) else none)
      else p.field h k key := by
  split
  · next he =>
    subst he
    exact TransactionRecord.get?_toValue_hasScResults _
  · next he =>
    unfold field record
    rw [hi]
    exact (TransactionRecord.get?_toValue_of_ne
      ((k.correlator p).txRecord h info p.header (p.body.miniBlockOf.find? h) false) (p.marks h) he)

end Pass
end ChainIndex
