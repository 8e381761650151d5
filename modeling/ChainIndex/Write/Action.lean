import ChainIndex.Write.Mutation
import ChainIndex.Json.Printer

/-!
What a write does to a stored document, and two writes made one.
-/
namespace ChainIndex

inductive WriteAction where
  /-- Puts a document in the place of whatever is stored. -/
  | overwrite (doc : Value)
  /-- Changes the stored document, or an empty one. -/
  | upsert (mutations : List Mutation)
  /-- Changes the stored document, if there is one. -/
  | update (mutations : List Mutation)
  | delete

structure WriteItem where
  id : String
  action : WriteAction

namespace WriteAction

def apply (action : WriteAction) (stored : Option Value) : Option Value :=
  match action with
  | overwrite doc => some doc
  | upsert ms => some (Mutation.applyAll ms (stored.getD .empty))
  | update ms => stored.map (Mutation.applyAll ms)
  | delete => none

/-- One write with the effect of two in a row. Only where an update comes before an upsert and
nothing is stored does it differ: the update then counts too. -/
def combine (first second : WriteAction) : WriteAction :=
  match first, second with
  | _, overwrite doc => overwrite doc
  | _, delete => delete
  | overwrite doc, upsert ms => overwrite (Mutation.applyAll ms doc)
  | overwrite doc, update ms => overwrite (Mutation.applyAll ms doc)
  | delete, upsert ms => overwrite (Mutation.applyAll ms .empty)
  | delete, update _ => delete
  | upsert a, upsert b => upsert (a ++ b)
  | upsert a, update b => upsert (a ++ b)
  | update a, upsert b => upsert (a ++ b)
  | update a, update b => update (a ++ b)

def toJson : WriteAction → Json
  | overwrite doc => .obj [("action", .str "overwrite"), ("body", doc.toJson)]
  | upsert ms => .obj [("action", .str "upsert"), ("body", .arr (ms.map Mutation.toJson))]
  | update ms => .obj [("action", .str "update"), ("body", .arr (ms.map Mutation.toJson))]
  | delete => .obj [("action", .str "delete")]

def names : List String := ["overwrite", "upsert", "update", "delete"]

/-- Reads an action that has `room` for arrays and objects one in another; a deletion has no body,
or null. -/
def ofJson? (room : Nat) (j : Json) : Option WriteAction := do
  let (name, body, held) ← j.tagged? names "action" "body" (room - 1) false
  match name, body with
  | "overwrite", some body => (body.value? (room - 1)).map overwrite
  | "upsert", some body => (body.list? (Mutation.ofJson? (room - 2) held)).map upsert
  | "update", some body => (body.list? (Mutation.ofJson? (room - 2) held)).map update
  | "delete", none => some delete
  | "delete", some .null => some delete
  | _, _ => none

end WriteAction

namespace WriteItem

def toJson (item : WriteItem) : Json := .obj [("id", .str item.id), ("action", item.action.toJson)]

def ofJson? (room : Nat) (j : Json) : Option WriteItem := do
  let [id, action] ← j.record? ["id", "action"] | none
  return { id := ← id.required? Json.str?, action := ← action.required? (WriteAction.ofJson? (room - 1)) }

def size (item : WriteItem) : Nat := item.toJson.text.utf8ByteSize

end WriteItem
end ChainIndex
