import ChainIndex.Indexer.BlockWrites
import ChainIndex.Store.Session
import ChainIndex.Store.Index

/-!
Undoing what a block wrote, by its header and body. There are four steps, and each is attempted
whatever became of the others.
-/
namespace ChainIndex

inductive RollbackStep where
  | block
  | miniBlocks
  | transactions
  | balances
deriving DecidableEq, Repr

def RollbackStep.label : RollbackStep → String
  | .block => "block"
  | .miniBlocks => "miniblocks"
  | .transactions => "transactions"
  | .balances => "accounts dcdt"

structure RollbackError where
  failures : List (RollbackStep × StoreError)
deriving DecidableEq, Repr

def RollbackError.message (e : RollbackError) : String :=
  "rollback failed: " ++
    "; ".intercalate (e.failures.map fun (step, cause) => step.label ++ ": " ++ cause.message)

namespace Rollback

def originTxHash : String := "originalTxHash"
def hasScResults : String := "hasScResults"

/-- The fields, besides refunds, of a transaction document that no block holding the transaction has
written yet. -/
def placeholderFields : List String := [hasScResults, "type"]

def isBarePlaceholder : Value → Bool
  | .obj fields => fields.all fun (key, _) => placeholderFields.contains key
  | _ => false

def removeBlock (header : Header) : StoreM Unit :=
  StoreM.bulkUpsert Index.blocks [⟨header.hashHex, .delete⟩]

def revertMiniBlocks (header : Header) (body : Body) : StoreM Unit :=
  match miniBlockReverts header body with
  | [] => pure ()
  | items => StoreM.bulkUpsert Index.miniBlocks items

/-- Removes the balances that the block with this time stamp wrote on this shard, and answers how
many they were. -/
def removeBalances (timestamp : UInt64) (shard : UInt32) : StoreM Nat :=
  StoreM.deleteByQuery Index.balances (.writtenByBlock timestamp shard)

/-- The reverted results by the transaction they belong to; transactions that are reverted too are
left out. -/
def resultsByParent (hashes : List String) (docs : List (Option Value)) : Dict (List String) :=
  (hashes.zip docs).foldl (fun parents (hash, doc) =>
    match (doc.bind (·.get? originTxHash)).bind Value.text? with
    | some parent =>
      if hashes.contains parent then parents
      else parents.alter parent fun known => known.getD [] ++ [hash]
    | none => parents) []

def hasOtherResults (hashes : List String) (parent : String) : StoreM Bool := do
  let docs ← StoreM.scroll Index.scResults (.term originTxHash (.str parent))
  return docs.any fun doc => !hashes.contains doc.id

/-- Takes back the refunds of the reverted results, and the mark of results when none is left. -/
def unwindMutations (d : Denomination) (results : List String) (others : Bool) : List Mutation :=
  results.map (fun id => .fee (.revertRefund id d)) ++ if others then [] else [.unset hasScResults]

def unwinds (d : Denomination) (hashes : List String) : Dict (List String) → StoreM (Dict (List Mutation))
  | [] => return []
  | (parent, results) :: rest => do
    let others ← hasOtherResults hashes parent
    let more ← unwinds d hashes rest
    return (parent, unwindMutations d results others) :: more

/-- The write that unwinds a stored transaction. With a fee it keeps its document; a placeholder goes
once nothing is left in it. -/
def unwindItem? (id : String) (ms : List Mutation) : Option Value → Option WriteItem
  | none => none
  | some doc =>
    if (doc.get? Fee.feeField).isSome then some ⟨id, .update ms⟩
    else
      let rest := Mutation.applyAll ms doc
      some ⟨id, if isBarePlaceholder rest then .delete else .overwrite rest⟩

def unwindParents (index : String) (changes : Dict (List Mutation)) : StoreM Unit := do
  let stored ← StoreM.multiGet index changes.keys
  match (changes.zip stored).filterMap fun ((id, ms), doc) => unwindItem? id ms doc with
  | [] => pure ()
  | items => StoreM.bulkUpsert index items

def unwindResults (d : Denomination) (hashes : List String) : StoreM Unit := do
  let docs ← StoreM.multiGet Index.scResults hashes
  match resultsByParent hashes docs with
  | [] => pure ()
  | parents =>
    let changes ← unwinds d hashes parents
    ExceptT.mk do
      let outcomes ← Session.all
        [(unwindParents Index.transactions changes).run, (unwindParents Index.operations changes).run]
      return firstError outcomes

/-- Unwinds the results of the body while their documents still name their transactions, and then
removes all its documents. Every index is attempted. -/
def removeTransactions (d : Denomination) (body : Body) : StoreM Unit :=
  let hashes := body.txHashes
  let deletes := hashes.map fun hash => WriteItem.mk hash .delete
  if hashes.isEmpty then pure ()
  else
    ExceptT.mk do
      let outcomes ← Session.all <| (unwindResults d hashes).run ::
        [Index.transactions, Index.scResults, Index.operations].map fun index =>
          (StoreM.bulkUpsert index deletes).run
      return firstError outcomes

def steps (d : Denomination) (header : Header) (body : Body) : List (RollbackStep × StoreM Unit) :=
  [(.block, removeBlock header), (.miniBlocks, revertMiniBlocks header body),
    (.transactions, removeTransactions d body),
    (.balances, discard (removeBalances header.timestamp header.shard))]

def failureOf? (step : RollbackStep) : Except StoreError Unit → Option (RollbackStep × StoreError)
  | .ok _ => none
  | .error e => some (step, e)

def revertBlock (d : Denomination) (header : Header) (body : Body) : Session (Except RollbackError Unit) := do
  let outcomes ← Session.all ((steps d header body).map fun (step, procedure) => do
    let outcome ← procedure.run
    return failureOf? step outcome)
  match outcomes.filterMap id with
  | [] => return .ok ()
  | failures => return .error ⟨failures⟩

end Rollback
end ChainIndex
