import ChainIndex.Json.Basic
import ChainIndex.Amount
import ChainIndex.Dict
import ChainIndex.Double.Literal

/-!
Reading records. A record is an object with its fields by name, or an array with its fields in
their declared order. Unknown names are skipped; a declared name may not be repeated.
-/
namespace ChainIndex
namespace Json

/-- What a record gives for a field: a value, nothing under its name, or an array too short to
reach it. -/
inductive Slot where
  | given (value : Json)
  | absent
  | cut
deriving Inhabited

def slot? (members : List (String × Json)) (name : String) : Option Slot :=
  match members.filter fun (n, _) => n == name with
  | [] => some .absent
  | [(_, value)] => some (.given value)
  | _ => none

def named? (names : List String) : Json → Option (List Slot)
  | .obj members => names.mapM (slot? members)
  | _ => none

def record? (names : List String) : Json → Option (List Slot)
  | .arr items =>
    if items.length ≤ names.length then
      some (items.map .given ++ List.replicate (names.length - items.length) .cut)
    else none
  | j => j.named? names

def nullable? {α : Type} (read : Json → Option α) : Json → Option (Option α)
  | .null => some none
  | j => (read j).map some

namespace Slot

variable {α : Type}

def required? (read : Json → Option α) : Slot → Option α
  | .given j => read j
  | _ => none

def orElse? (value : α) (read : Json → Option α) : Slot → Option α
  | .given j => read j
  | _ => some value

def optional? (read : Json → Option α) : Slot → Option (Option α)
  | .given j => nullable? read j
  | .absent => some none
  | .cut => none

end Slot

def bool? : Json → Option Bool
  | .bool b => some b
  | _ => none

def str? : Json → Option String
  | .str s => some s
  | _ => none

def natBelow? (bound : Nat) : Json → Option Nat
  | .int z => if 0 ≤ z ∧ z < bound then some z.toNat else none
  | _ => none

def uint8? (j : Json) : Option UInt8 := (j.natBelow? UInt8.size).map Nat.toUInt8

def uint32? (j : Json) : Option UInt32 := (j.natBelow? UInt32.size).map Nat.toUInt32

def uint64? (j : Json) : Option UInt64 := (j.natBelow? UInt64.size).map Nat.toUInt64

def amount? (j : Json) : Option Amount := (j.natBelow? Amount.bound).bind Amount.ofNat?

def amountText? (j : Json) : Option Amount := j.str?.bind Amount.ofText?

def double? : Json → Option Double
  | .real x => some x
  | .int z => Double.ofInt? z
  | _ => none

def list? {α : Type} (read : Json → Option α) : Json → Option (List α)
  | .arr items => items.mapM read
  | _ => none

def octets? (j : Json) : Option Bytes := j.list? uint8?

def strings? (j : Json) : Option (List String) := j.list? str?

def dict? {α : Type} (read : Json → Option α) : Json → Option (Dict α)
  | .obj members =>
    (members.mapM fun (member : String × Json) => (read member.2).map (member.1, ·)).map Dict.ofList
  | _ => none

/-- A bare variant name: a string, or an object whose only member has that name and no value. -/
def variantName? : Json → Option String
  | .str name => some name
  | .obj [(name, .null)] => some name
  | _ => none

end Json
end ChainIndex
