import ChainIndex.Double.Basic

/-!
JSON as a text carries it: members in their order, repeated names included, and integers of any
length. A token that is well formed but stands for nothing (a string that is no Unicode text, a
number too big for a double) is `unreadable`: it may be skipped, not read.
-/
namespace ChainIndex

inductive Json where
  | null
  | bool (b : Bool)
  | int (z : Int)
  | real (x : Double)
  | str (s : String)
  | arr (items : List Json)
  | obj (members : List (String × Json))
  | unreadable
deriving Inhabited

namespace Json

def nat (n : Nat) : Json := .int n

def octets (bytes : List UInt8) : Json := .arr (bytes.map fun b => .nat b.toNat)

def strings (texts : List String) : Json := .arr (texts.map .str)

def double (x : Double) : Json := if x.isFinite then .real x else .null

def option {α : Type} (f : α → Json) : Option α → Json
  | some x => f x
  | none => .null

def textField (name text : String) : List (String × Json) :=
  if text.isEmpty then [] else [(name, .str text)]

def textsField (name : String) (texts : List String) : List (String × Json) :=
  if texts.isEmpty then [] else [(name, strings texts)]

end Json
end ChainIndex
