import ChainIndex.Double.Basic

/-!
The double that a decimal literal denotes. The leading digits that fit a 64-bit word make the
significand, all further ones only shift it; one multiplication or division by a power of ten
scales it. A literal too big for a double denotes none.
-/
namespace ChainIndex
namespace Double

/-- Takes digits while the number they make fits a word; answers it and the count of digits left. -/
def takeWord (significand : Nat) : List Nat → Nat × Nat
  | [] => (significand, 0)
  | d :: rest =>
    if significand * 10 + d < UInt64.size then takeWord (significand * 10 + d) rest
    else (significand, rest.length + 1)

def divideTen (f : Float) (n : Nat) : Float :=
  if n ≤ 308 then f / tenTo n
  else if f == 0 then f
  else divideTen (f / tenTo 308) (n - 308)
termination_by n

def scaleTen? (significand : Nat) (exponent : Int) : Option Float :=
  let f := (ofNat significand).toFloat
  if exponent < 0 then some (divideTen f exponent.natAbs)
  else if exponent.natAbs ≤ 308 then
    let g := f * tenTo exponent.natAbs
    if g.isInf then none else some g
  else if significand = 0 then some f
  else none

def ofLiteral? (negative : Bool) (whole fraction : List Nat) (exponent : Int) : Option Double :=
  let (w, dropped) := takeWord 0 whole
  let (significand, unused) := takeWord w fraction
  let place := exponent + dropped - (fraction.length - unused : Nat)
  (scaleTen? significand place).map fun f => ofFloat (if negative then -f else f)

def ofInt? (z : Int) : Option Double :=
  ofLiteral? (z < 0) ((Nat.toDigits 10 z.natAbs).map fun c => c.toNat - 48) [] 0

end Double
end ChainIndex
