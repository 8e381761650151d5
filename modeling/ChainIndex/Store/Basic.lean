import ChainIndex.Write.Action
import ChainIndex.Write.Query

/-!
A document store held in memory: named indices of documents by id. An index may be unavailable,
and every bulk request that reaches an available one is on record.
-/
namespace ChainIndex

inductive StoreError where
  | notFound (what : String)
  | conflict (what : String)
  | backend (what : String)
  | serialization (what : String)
  | corruption (what : String)
deriving DecidableEq, Repr

def StoreError.message : StoreError → String
  | .notFound what => "document not found: " ++ what
  | .conflict what => "write conflict on " ++ what
  | .backend what => "storage backend error: " ++ what
  | .serialization what => "serialization error: " ++ what
  | .corruption what => "stored document is corrupted: " ++ what

structure Document where
  id : String
  source : Value

structure Store where
  indices : Dict (Dict Value) := []
  unavailable : List String := []
  /-- The index and the number of writes of every bulk request, in order. -/
  requests : List (String × Nat) := []
  /-- The most documents that one page of a scroll holds. -/
  pageSize : Nat := 100

namespace Store

def withPageSize (n : Nat) : Store := { pageSize := max n 1 }

def index (s : Store) (name : String) : Dict Value := (s.indices.find? name).getD []

def get? (s : Store) (name id : String) : Option Value := (s.index name).find? id

def documents (s : Store) (name : String) : List Document := (s.index name).map fun (id, v) => ⟨id, v⟩

def count (s : Store) (name : String) : Nat := (s.index name).length

def setIndex (s : Store) (name : String) (docs : Dict Value) : Store :=
  { s with indices := s.indices.insert name docs }

def put (s : Store) (name id : String) (doc : Value) : Store :=
  s.setIndex name ((s.index name).insert id doc)

def fail (s : Store) (name : String) : Store := { s with unavailable := name :: s.unavailable }

def heal (s : Store) (name : String) : Store := { s with unavailable := s.unavailable.filter (· ≠ name) }

def unavailableError (name : String) : StoreError := .backend ("index " ++ name ++ " unavailable")

def check (s : Store) (name : String) : Except StoreError Unit :=
  if s.unavailable.contains name then .error (unavailableError name) else .ok ()

def applyItem (docs : Dict Value) (item : WriteItem) : Dict Value :=
  match item.action.apply (docs.find? item.id) with
  | some doc => docs.insert item.id doc
  | none => docs.erase item.id

def multiGet (s : Store) (name : String) (ids : List String) : Except StoreError (List (Option Value)) := do
  s.check name
  return ids.map (s.get? name)

def bulkUpsert (s : Store) (name : String) (items : List WriteItem) : Except StoreError Store := do
  s.check name
  let s := { s with requests := s.requests ++ [(name, items.length)] }
  return s.setIndex name (items.foldl applyItem (s.index name))

def selected (s : Store) (name : String) (query : Query) : List Document :=
  (s.documents name).filter fun doc => query.selects doc.source

def pages (size : Nat) : List Document → List (List Document)
  | [] => []
  | doc :: rest => (doc :: rest.take (size - 1)) :: pages size (rest.drop (size - 1))
termination_by docs => docs.length
decreasing_by simp only [List.length_drop, List.length_cons]; omega

def scrollPages (s : Store) (name : String) (query : Query) : Except StoreError (List (List Document)) := do
  s.check name
  return pages s.pageSize (s.selected name query)

def feed {σ : Type} (handler : σ → List Document → Except StoreError σ) (start : σ) :
    List (List Document) → σ × Option StoreError
  | [] => (start, none)
  | page :: rest =>
    match handler start page with
    | .ok next => feed handler next rest
    | .error e => (start, some e)

/-- Hands the selected documents to the handler page by page; answers how far it came and what it
failed with. -/
def scroll {σ : Type} (s : Store) (name : String) (query : Query)
    (handler : σ → List Document → Except StoreError σ) (start : σ) : σ × Option StoreError :=
  match s.scrollPages name query with
  | .error e => (start, some e)
  | .ok found => feed handler start found

def deleteByQuery (s : Store) (name : String) (query : Query) : Except StoreError (Nat × Store) := do
  s.check name
  match s.indices.find? name with
  | none => return (0, s)
  | some docs =>
    let kept := docs.filter fun (_, doc) => !query.selects doc
    return (docs.length - kept.length, s.setIndex name kept)

end Store

end ChainIndex
