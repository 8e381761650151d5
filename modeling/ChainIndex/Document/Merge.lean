import ChainIndex.Document.Value

/-!
Merging a patch into a document: objects are merged key by key, anything else in the patch replaces
what was there.
-/
namespace ChainIndex
namespace Value

mutual

def merge : Value → Value → Value
  | patch, target =>
    match patch, target with
    | .obj news, .obj fields => .obj (mergeFields news fields)
    | _, _ => patch

def mergeFields : List (String × Value) → Dict Value → Dict Value
  | [], fields => fields
  | (key, patch) :: rest, fields =>
    let value :=
      match Dict.find? fields key with
      | some old => merge patch old
      | none => patch
    mergeFields rest (Dict.insert fields key value)

end

/-- Enters the keys of the patch that the document lacks; a document that is no object starts as an
empty one. -/
def mergeAbsent (patch target : Value) : Value :=
  .obj (patch.fieldsOrEmpty.foldl (fun fields (key, value) => Dict.insertIfAbsent fields key value)
    target.fieldsOrEmpty)

end Value
end ChainIndex
