import ChainIndex.Json.Basic
import ChainIndex.Dict
import ChainIndex.Double.Literal

/-!
Documents: JSON without its text. Objects are dictionaries, and a number is a non-negative or a
negative 64-bit integer or a double. The three kinds of number never equal one another.
-/
namespace ChainIndex

inductive Value where
  | null
  | bool (b : Bool)
  | nat (n : UInt64)
  /-- The integer `-(n + 1)`, no less than `-2^63`. -/
  | neg (n : Fin 9223372036854775808)
  | real (x : Double)
  | str (s : String)
  | arr (items : List Value)
  | obj (fields : List (String × Value))
deriving Inhabited

namespace Value

def empty : Value := .obj []

def record (fields : List (String × Value)) : Value := .obj (Dict.ofList fields)

def double (x : Double) : Value := if x.isFinite then .real x else .null

def strings (texts : List String) : Value := .arr (texts.map .str)

def isNull : Value → Bool
  | .null => true
  | _ => false

def fields? : Value → Option (Dict Value)
  | .obj fields => some fields
  | _ => none

def items? : Value → Option (List Value)
  | .arr items => some items
  | _ => none

def text? : Value → Option String
  | .str s => some s
  | _ => none

def bool? : Value → Option Bool
  | .bool b => some b
  | _ => none

def nat? : Value → Option UInt64
  | .nat n => some n
  | _ => none

def get? (v : Value) (key : String) : Option Value := v.fields?.bind (·.find? key)

def fieldsOrEmpty : Value → Dict Value
  | .obj fields => fields
  | _ => []

mutual

/-- Equality of documents: doubles by their number, all else by identity. -/
def same : Value → Value → Bool
  | .null, .null => true
  | .bool a, .bool b => a == b
  | .nat a, .nat b => a == b
  | .neg a, .neg b => a == b
  | .real a, .real b => a.same b
  | .str a, .str b => a == b
  | .arr a, .arr b => sameItems a b
  | .obj a, .obj b => sameFields a b
  | _, _ => false

def sameItems : List Value → List Value → Bool
  | [], [] => true
  | a :: as, b :: bs => same a b && sameItems as bs
  | _, _ => false

def sameFields : List (String × Value) → List (String × Value) → Bool
  | [], [] => true
  | (k, a) :: as, (l, b) :: bs => k == l && same a b && sameFields as bs
  | _, _ => false

end

def isAmong (v : Value) (items : List Value) : Bool := items.any (same v)

mutual

def toJson : Value → Json
  | .null => .null
  | .bool b => .bool b
  | .nat n => .int n.toNat
  | .neg n => .int (Int.negSucc n.val)
  | .real x => .real x
  | .str s => .str s
  | .arr items => .arr (itemsToJson items)
  | .obj fields => .obj (fieldsToJson fields)

def itemsToJson : List Value → List Json
  | [] => []
  | v :: rest => toJson v :: itemsToJson rest

def fieldsToJson : List (String × Value) → List (String × Json)
  | [] => []
  | (k, v) :: rest => (k, toJson v) :: fieldsToJson rest

end

def ofInt (z : Int) : Value :=
  match z with
  | .ofNat n => if n < UInt64.size then .nat n.toUInt64 else beyond z
  | .negSucc n => if h : n < 9223372036854775808 then .neg ⟨n, h⟩ else beyond z
where
  beyond (z : Int) : Value := ((Double.ofInt? z).map .real).getD .null

end Value

namespace Json

mutual

/-- The document that a text carries: of repeated names the last counts. -/
def toValue : Json → Value
  | .null => .null
  | .bool b => .bool b
  | .int z => .ofInt z
  | .real x => .real x
  | .str s => .str s
  | .arr items => .arr (itemsToValue items)
  | .obj members => .obj (membersToValue [] members)
  | .unreadable => .null

def itemsToValue : List Json → List Value
  | [] => []
  | j :: rest => toValue j :: itemsToValue rest

def membersToValue (fields : Dict Value) : List (String × Json) → Dict Value
  | [] => fields
  | (k, j) :: rest => membersToValue (fields.insert k (toValue j)) rest

end

def depthLimit : Nat := 127

mutual

/-- Whether every token stands for something and there is room for the nesting: at most `room`
arrays and objects one in another. -/
def readable (room : Nat) : Json → Bool
  | .unreadable => false
  | .arr items => 0 < room && itemsReadable (room - 1) items
  | .obj members => 0 < room && membersReadable (room - 1) members
  | _ => true

def itemsReadable (room : Nat) : List Json → Bool
  | [] => true
  | j :: rest => readable room j && itemsReadable room rest

def membersReadable (room : Nat) : List (String × Json) → Bool
  | [] => true
  | (_, j) :: rest => readable room j && membersReadable room rest

end

def value? (room : Nat) (j : Json) : Option Value :=
  if j.readable room then some j.toValue else none

def values? (room : Nat) (j : Json) : Option (List Value) := (j.value? room).bind Value.items?

end Json
end ChainIndex
