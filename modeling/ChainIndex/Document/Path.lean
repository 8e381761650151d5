import ChainIndex.Document.Value
import ChainIndex.Text.Split

/-!
Dotted paths into documents. Reading a path and changing what is there touch existing values only;
writing makes every object that is missing on the way, in place of whatever stands there.
-/
namespace ChainIndex

namespace Path

def keys (path : String) : List String := (Text.splitAll '.' path.toList).map String.ofList

end Path

namespace Value

def at? : List String → Value → Option Value
  | [], v => some v
  | k :: ks, v => (v.get? k).bind (at? ks)

def lookup? (v : Value) (path : String) : Option Value := v.at? (Path.keys path)

/-- Changes the value at the end of the keys, making the way there; what is new starts as null. -/
def writeAt (f : Value → Value) : List String → Value → Value
  | [], v => f v
  | k :: ks, v =>
    let fields := v.fieldsOrEmpty
    .obj (Dict.insert fields k (writeAt f ks ((Dict.find? fields k).getD .null)))

def adjustAt (f : Value → Value) : List String → Value → Value
  | [], v => f v
  | k :: ks, v =>
    match v with
    | .obj fields =>
      match Dict.find? fields k with
      | some w => .obj (Dict.insert fields k (adjustAt f ks w))
      | none => .obj fields
    | v => v

def eraseKey (key : String) : Value → Value
  | .obj fields => .obj (Dict.erase fields key)
  | v => v

def eraseAt (keys : List String) (v : Value) : Value :=
  match keys.getLast? with
  | some key => v.adjustAt (eraseKey key) keys.dropLast
  | none => v

def set (v : Value) (key : String) (value : Value) : Value :=
  .obj (Dict.insert v.fieldsOrEmpty key value)

def addEach (values : List Value) (v : Value) : Value :=
  .arr (values.foldl (fun items w => if w.isAmong items then items else items ++ [w])
    (v.items?.getD []))

def dropWhere (key : String) (values : List Value) : Value → Value
  | .arr items =>
    .arr (items.filter fun item =>
      match item.get? key with
      | some w => !w.isAmong values
      | none => true)
  | v => v

def dropEqual (value : Value) : Value → Value
  | .arr items => .arr (items.filter fun item => !item.same value)
  | v => v

end Value
end ChainIndex
