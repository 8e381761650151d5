import ChainIndex.Store.Session
import ChainIndex.Store.Index
import ChainIndex.Write.Bulk

/-!
The writes of one block, at most one for each document, and their flush. Each index is flushed on
its own: its documents go out in id order in requests of limited size, up to the first that fails.
-/
namespace ChainIndex

structure WriteBatch where
  indices : Dict (Dict WriteAction) := []

namespace WriteBatch

/-- Adds a write; a second one to the same document is made one with the first. -/
def push (b : WriteBatch) (index : String) (item : WriteItem) : WriteBatch where
  indices := b.indices.alter index fun docs =>
    (docs.getD []).alter item.id fun earlier =>
      match earlier with
      | some action => action.combine item.action
      | none => item.action

def extend (b : WriteBatch) (index : String) (items : List WriteItem) : WriteBatch :=
  items.foldl (fun b item => b.push index item) b

def get? (b : WriteBatch) (index id : String) : Option WriteAction :=
  (b.indices.find? index).bind (·.find? id)

def length (b : WriteBatch) : Nat := b.indices.values.flatten.length

def isEmpty (b : WriteBatch) : Bool := b.length == 0

end WriteBatch

/-- The number of documents written, by index. Every document has a text, so none is ever left out. -/
structure FlushReport where
  written : Dict Nat := []
  skipped : List String := []
deriving DecidableEq, Repr, Inhabited

namespace FlushReport

def writtenTo (r : FlushReport) (index : String) : Nat := (r.written.find? index).getD 0

def total (r : FlushReport) : Nat := r.written.values.foldl (· + ·) 0

end FlushReport

namespace Flush

def sendAll (index : String) : List (List WriteItem) → StoreM Unit
  | [] => pure ()
  | chunk :: rest => do
    StoreM.bulkUpsert index chunk
    sendAll index rest

def flushIndex (limit : Nat) (index : String) (docs : Dict WriteAction) : StoreM Nat := do
  let bulk := Bulk.ofList limit (docs.map fun (id, action) => ⟨id, action⟩)
  sendAll index bulk.chunks
  return bulk.length

def report (outcomes : List (String × Except StoreError Nat)) : Except StoreError FlushReport := do
  firstError (outcomes.map Prod.snd)
  return { written := outcomes.map fun (index, written) => (index, written.toOption.getD 0) }

/-- Flushes indices one after the other, whatever becomes of each. -/
def flushIndices (limit : Nat) (indices : List (String × Dict WriteAction)) :
    Session (List (String × Except StoreError Nat)) :=
  Session.all (indices.map fun (index, docs) => do
    let written ← (flushIndex limit index docs).run
    return (index, written))

def flush (limit : Nat) (b : WriteBatch) : Session (Except StoreError FlushReport) := do
  return report (← flushIndices limit b.indices)

end Flush
end ChainIndex
