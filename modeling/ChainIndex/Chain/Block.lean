import ChainIndex.Chain.Header
import ChainIndex.Chain.Transaction
import ChainIndex.Chain.Log
import ChainIndex.Chain.Account

/-!
A block of one shard with all that is needed to index it.
-/
namespace ChainIndex

structure Pool where
  transactions : Dict TxInfo := []
  scResults : Dict ScResultInfo := []
  logs : List Log := []
deriving DecidableEq, Repr, Inhabited

/-- The altered accounts are keyed by their encoded address. -/
structure Block where
  header : Header := {}
  body : Body := {}
  pool : Pool := {}
  accounts : Dict AlteredAccount := []
deriving DecidableEq, Repr, Inhabited

namespace Pool

def fieldNames : List String := ["transactions", "smart_contract_results", "logs"]

def toJson (p : Pool) : Json :=
  .obj [("transactions", .obj (p.transactions.map fun (k, v) => (k, v.toJson))),
    ("smart_contract_results", .obj (p.scResults.map fun (k, v) => (k, v.toJson))),
    ("logs", .arr (p.logs.map Log.toJson))]

def ofJson? (j : Json) : Option Pool := do
  let [transactions, scResults, logs] ← j.record? fieldNames | none
  return {
    transactions := ← transactions.required? (Json.dict? TxInfo.ofJson?)
    scResults := ← scResults.required? (Json.dict? ScResultInfo.ofJson?)
    logs := ← logs.required? (Json.list? Log.ofJson?) }

end Pool

namespace Block

def fieldNames : List String := ["header", "body", "pool", "altered_accounts"]

def toJson (b : Block) : Json :=
  .obj [("header", b.header.toJson), ("body", b.body.toJson), ("pool", b.pool.toJson),
    ("altered_accounts", .obj (b.accounts.map fun (k, v) => (k, v.toJson)))]

def ofJson? (j : Json) : Option Block := do
  let [header, body, pool, accounts] ← j.record? fieldNames | none
  return {
    header := ← header.required? Header.ofJson?
    body := ← body.required? Body.ofJson?
    pool := ← pool.required? Pool.ofJson?
    accounts := ← accounts.required? (Json.dict? AlteredAccount.ofJson?) }

end Block
end ChainIndex
