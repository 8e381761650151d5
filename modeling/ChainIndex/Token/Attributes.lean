import ChainIndex.Text.Split
import ChainIndex.Text.Field

/-!
Attributes of a token: parts of the form `key:value` between semicolons. The first part with a key
counts, and a value may hold further colons.
-/
namespace ChainIndex
namespace Attributes

def value? (key : String) (attributes : Bytes) : Option (List Char) :=
  (Text.splitAll ';' (Utf8.decodeLossy attributes).toList).findSome? fun part =>
    match Text.splitFirst ':' part with
    | some (k, v) => if Text.trim k = key.toList then some v else none
    | none => none

def tags (attributes : Bytes) : List String :=
  match value? "tags" attributes with
  | some list =>
    (((Text.splitAll ',' list).map Text.trim).filter (!·.isEmpty)).map
      fun tag => Text.toField (String.ofList tag)
  | none => []

def metadata? (attributes : Bytes) : Option String :=
  match value? "metadata" attributes with
  | some [] => none
  | some text => some (Text.toField (String.ofList text))
  | none => none

end Attributes
end ChainIndex
