import ChainIndex.Document.Merge
import ChainIndex.Write.Fee
import ChainIndex.Write.Tagged
import ChainIndex.Status

/-!
Changes of single fields of a stored document.
-/
namespace ChainIndex

inductive Mutation where
  /-- Merges an object into the document. -/
  | merge (patch : Value)
  /-- Enters the top-level keys that are not there yet. -/
  | mergeIfAbsent (patch : Value)
  | set (field : String) (value : Value)
  | unset (field : String)
  /-- Appends the values that the array at `field` lacks. -/
  | addToSet (field : String) (values : List Value)
  /-- Drops the elements of the array at `field` whose `key` is one of the values. -/
  | removeWhere (field key : String) (values : List Value)
  /-- Grants a role to an address, or takes it away. -/
  | setRole (role address : String) (granted : Bool)
  | fee (write : FeeWrite)
  | latchStatus (signal : StatusInfo)

namespace Mutation

def rolePath (role : String) : String := "roles." ++ role

def flag (doc : Value) (key : String) : Bool := ((doc.get? key).bind Value.bool?).getD false

/-- The status that a document shows; parts that cannot be read count as unset. -/
def statusOf (doc : Value) : StatusInfo where
  completed := flag doc "completedEvent"
  failed := flag doc "errorEvent"
  status := ((doc.get? "status").bind Value.text?).getD ""

def setStatus (s : StatusInfo) (doc : Value) : Value :=
  ((doc.set "completedEvent" (.bool s.completed)).set "errorEvent" (.bool s.failed)).set "status" (.str s.status)

def apply (m : Mutation) (doc : Value) : Value :=
  match m with
  | merge patch => patch.merge doc
  | mergeIfAbsent patch => patch.mergeAbsent doc
  | set field value => doc.writeAt (fun _ => value) (Path.keys field)
  | unset field => doc.eraseAt (Path.keys field)
  | addToSet field values => doc.writeAt (Value.addEach values) (Path.keys field)
  | removeWhere field key values => doc.adjustAt (Value.dropWhere key values) (Path.keys field)
  | setRole role address granted =>
    let keys := Path.keys (rolePath role)
    if granted then doc.writeAt (Value.addEach [.str address]) keys
    else doc.adjustAt (Value.dropEqual (.str address)) keys
  | fee write => write.apply doc
  | latchStatus signal => setStatus ((statusOf doc).latch signal) doc

def applyAll (ms : List Mutation) (doc : Value) : Value := ms.foldl (fun doc m => m.apply doc) doc

end Mutation

namespace Mutation

/-- The kinds of mutations; in what was held back, a position in this list may stand for a name. -/
def names : List String :=
  ["merge", "mergeIfAbsent", "set", "unset", "addToSet", "removeWhere", "setRole", "fee", "latchStatus"]

def toJson : Mutation → Json
  | merge patch => tag "merge" patch.toJson
  | mergeIfAbsent patch => tag "mergeIfAbsent" patch.toJson
  | set field value => tag "set" (.obj [("field", .str field), ("value", value.toJson)])
  | unset field => tag "unset" (.obj [("field", .str field)])
  | addToSet field values =>
    tag "addToSet" (.obj [("field", .str field), ("values", .arr (values.map Value.toJson))])
  | removeWhere field key values =>
    tag "removeWhere" (.obj [("field", .str field), ("key", .str key), ("values", .arr (values.map Value.toJson))])
  | setRole role address granted =>
    tag "setRole" (.obj [("role", .str role), ("address", .str address), ("set", .bool granted)])
  | fee write => tag "fee" write.toJson
  | latchStatus signal => tag "latchStatus" signal.toJson
where
  tag (name : String) (args : Json) : Json := .obj [("op", .str name), ("args", args)]

def ofArgs? (name : String) (room : Nat) (held : Bool) (args : Json) : Option Mutation :=
  match name with
  | "merge" => (args.value? room).map merge
  | "mergeIfAbsent" => (args.value? room).map mergeIfAbsent
  | "set" => do
    let [field, value] ← args.named? ["field", "value"] | none
    return set (← field.required? Json.str?) (← value.required? (Json.value? (room - 1)))
  | "unset" => do
    let [field] ← args.named? ["field"] | none
    return unset (← field.required? Json.str?)
  | "addToSet" => do
    let [field, values] ← args.named? ["field", "values"] | none
    return addToSet (← field.required? Json.str?) (← values.required? (Json.values? (room - 1)))
  | "removeWhere" => do
    let [field, key, values] ← args.named? ["field", "key", "values"] | none
    return removeWhere (← field.required? Json.str?) (← key.required? Json.str?)
      (← values.required? (Json.values? (room - 1)))
  | "setRole" => do
    let [role, address, granted] ← args.named? ["role", "address", "set"] | none
    return setRole (← role.required? Json.str?) (← address.required? Json.str?)
      (← granted.required? Json.bool?)
  | "fee" => (FeeWrite.ofJson? held room args).map fee
  | "latchStatus" => (StatusInfo.ofJson? args).map latchStatus
  | _ => none

/-- Reads a mutation that has `room` for arrays and objects one in another and may be `held` back. -/
def ofJson? (room : Nat) (held : Bool) (j : Json) : Option Mutation := do
  let (name, args, held) ← j.tagged? names "op" "args" (room - 1) held
  ofArgs? name (room - 1) held (← args)

end Mutation
end ChainIndex
