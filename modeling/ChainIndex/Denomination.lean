import ChainIndex.Amount
import ChainIndex.Double.Basic

/-!
Amounts as floating-point numbers of whole tokens, rounded to ten decimal places.
-/
namespace ChainIndex

def powerBySquaring (r a : Float) (n : Nat) : Float :=
  let r := if n % 2 = 1 then r * a else r
  if n / 2 = 0 then r else powerBySquaring r (a * a) (n / 2)
termination_by n

/-- How many decimal places the smallest unit stands below a whole token. -/
structure Denomination where
  places : UInt32
deriving DecidableEq, Repr, Inhabited

namespace Denomination

def greatest : Nat := 2147483647

def unit (d : Denomination) : Float := powerBySquaring 1 10 (min d.places.toNat greatest)

/-- The amount in whole tokens, a half of the tenth decimal going away from zero. -/
def toDouble (d : Denomination) (a : Amount) : Double :=
  let raw := (Double.ofNat a.units).toFloat / d.unit
  let scale := Double.tenTo 10
  .ofFloat ((raw * scale).round / scale)

def textToDouble (d : Denomination) (text : String) : Double :=
  match Amount.ofText? text with
  | some a => d.toDouble a
  | none => .zero

end Denomination
end ChainIndex
