import ChainIndex.Document.Path
import ChainIndex.Json.Slots

/-!
Selections of documents.
-/
namespace ChainIndex

inductive Query where
  | matchAll
  /-- The value at the path is this one. -/
  | term (field : String) (value : Value)
  /-- The value at the path is one of these. -/
  | terms (field : String) (values : List Value)
  /-- There is a value at the path, and it is not null. -/
  | present (field : String)
  | all (queries : List Query)

namespace Query

mutual

def selects : Query → Value → Bool
  | .matchAll, _ => true
  | .term field value, doc => (doc.lookup? field).any (·.same value)
  | .terms field values, doc => (doc.lookup? field).any (·.isAmong values)
  | .present field, doc => (doc.lookup? field).any (!·.isNull)
  | .all queries, doc => allSelect queries doc

def allSelect : List Query → Value → Bool
  | [], _ => true
  | q :: rest, doc => selects q doc && allSelect rest doc

end

def writtenByBlock (timestamp : UInt64) (shard : UInt32) : Query :=
  .all [.term "timestamp" (.nat timestamp), .term "shardID" (.nat shard.toUInt64)]

mutual

def toJson : Query → Json
  | .matchAll => .str "matchAll"
  | .term field value => .obj [("term", .obj [("field", .str field), ("value", value.toJson)])]
  | .terms field values =>
    .obj [("terms", .obj [("field", .str field), ("values", .arr (values.map Value.toJson))])]
  | .present field => .obj [("exists", .obj [("field", .str field)])]
  | .all queries => .obj [("and", .arr (queriesToJson queries))]

def queriesToJson : List Query → List Json
  | [] => []
  | q :: rest => toJson q :: queriesToJson rest

end

/-- The fields of a query with arguments: by name, or also in order where `listed` allows that. -/
def fields? (listed : Bool) (room : Nat) (names : List String) (j : Json) : Option (List Json.Slot) :=
  if room = 0 then none else if listed then j.record? names else j.named? names

mutual

def ofJson? (listed : Bool) (room : Nat) : Json → Option Query
  | .str "matchAll" => some .matchAll
  | .obj [(name, args)] => if room = 0 then none else ofArgs? listed (room - 1) name args
  | _ => none

def ofArgs? (listed : Bool) (room : Nat) (name : String) (args : Json) : Option Query :=
  match name, args with
  | "matchAll", .null => some .matchAll
  | "term", args => do
    let [field, value] ← fields? listed room ["field", "value"] args | none
    return .term (← field.required? Json.str?) (← value.required? (Json.value? (room - 1)))
  | "terms", args => do
    let [field, values] ← fields? listed room ["field", "values"] args | none
    return .terms (← field.required? Json.str?) (← values.required? (Json.values? (room - 1)))
  | "exists", args => do
    let [field] ← fields? listed room ["field"] args | none
    return .present (← field.required? Json.str?)
  | "and", .arr items =>
    if room = 0 then none else (queriesOfJson? listed (room - 1) items).map .all
  | _, _ => none

def queriesOfJson? (listed : Bool) (room : Nat) : List Json → Option (List Query)
  | [] => some []
  | j :: rest => do
    let q ← ofJson? listed room j
    let queries ← queriesOfJson? listed room rest
    return q :: queries

end

end Query
end ChainIndex
