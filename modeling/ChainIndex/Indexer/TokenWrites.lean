import ChainIndex.Accumulator.Block
import ChainIndex.Store.Session
import ChainIndex.Store.Index

/-!
The writes of tokens and of non-fungible tokens, with what they need from the store: the fields of
their collections, and the stored tokens whose collection the block gives a new type.
-/
namespace ChainIndex
namespace TokenWrites

def neededCollections (acc : BlockAccumulators) : List String :=
  (Dict.ofList (acc.nfts.values.filterMap fun n => n.collection?.map (·, ()))).keys

def fromBlock? (acc : BlockAccumulators) (collection : String) : Option CollectionFields :=
  (acc.tokens.find? collection).bind CollectionFields.ofAccumulator?

/-- The fields of all needed collections: from the block first, and from the store otherwise. -/
def collections (acc : BlockAccumulators) : StoreM (Dict CollectionFields) := do
  let needed := neededCollections acc
  let known := needed.filterMap fun c => (fromBlock? acc c).map (c, ·)
  let missing := needed.filter fun c => (fromBlock? acc c).isNone
  if missing.isEmpty then return Dict.ofList known
  else
    let docs ← StoreM.multiGet Index.tokens missing
    let stored := (missing.zip docs).filterMap fun (c, doc) =>
      (doc.bind CollectionFields.ofDocument?).map (c, ·)
    return Dict.ofList (known ++ stored)

def ofCollection (collection : String) : Query :=
  .all [.term "token" (.str collection), .present "nonce"]

def propagate (collection type : String) : StoreM (List WriteItem) := do
  let docs ← StoreM.scroll Index.tokens (ofCollection collection)
  let other := docs.filter fun doc => (doc.source.get? "type").bind Value.text? ≠ some type
  return other.map fun doc => ⟨doc.id, .update [.merge (.record [("type", .str type)])]⟩

def propagateAll : List (String × String) → StoreM (List WriteItem)
  | [] => return []
  | (collection, type) :: rest => do
    let items ← propagate collection type
    return items ++ (← propagateAll rest)

def newTypes (acc : BlockAccumulators) : List (String × String) :=
  acc.tokens.filterMap fun (token, t) => t.type?.map (token, ·)

def tokenWrites (acc : BlockAccumulators) : StoreM (List WriteItem) := do
  let tokens := acc.tokens.filterMap fun (token, t) => t.write? token
  let fields ← collections acc
  let nfts := acc.nfts.filterMap fun (identifier, n) =>
    n.write? identifier (n.collection?.bind fields.find?)
  let propagated ← propagateAll (newTypes acc)
  return tokens ++ nfts ++ propagated

end TokenWrites
end ChainIndex
