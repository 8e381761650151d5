/-!
Double-precision numbers, held as their 64 bits: equality of `Double` is identity of the number
with its sign of zero, `Double.same` is numeric equality.
-/
namespace ChainIndex

structure Double where
  bits : UInt64
deriving DecidableEq, Repr, Inhabited

namespace Double

def toFloat (x : Double) : Float := Float.ofBits x.bits

def ofFloat (f : Float) : Double := ⟨f.toBits⟩

def zero : Double := ⟨0⟩

def negativeZero : Double := ⟨0x8000000000000000⟩

def signBit : Nat := 0x8000000000000000

def hiddenBit : Nat := 0x10000000000000

def isNegative (x : Double) : Bool := x.bits.toNat ≥ signBit

def magnitude (x : Double) : Nat := x.bits.toNat % signBit

def isZero (x : Double) : Bool := x.magnitude == 0

def isFinite (x : Double) : Bool := x.magnitude < 0x7FF * hiddenBit

def same (x y : Double) : Bool := x == y || (x.isZero && y.isZero)

/-- The nearest double of a natural number; a tie goes to the even neighbour, and what is too big
becomes infinite. -/
def ofNat (n : Nat) : Double :=
  if n = 0 then zero
  else
    let e := n.log2
    let significand :=
      if e ≤ 52 then n <<< (52 - e)
      else
        let q := n >>> (e - 52)
        let r := n % (1 <<< (e - 52))
        let half := 1 <<< (e - 53)
        if half < r ∨ (r = half ∧ q % 2 = 1) then q + 1 else q
    ⟨(min ((e + 1022) * hiddenBit + significand) (0x7FF * hiddenBit)).toUInt64⟩

/-- The finite double `m · 2^q` that the bits stand for, without its sign. -/
def decompose (x : Double) : Nat × Int :=
  let exponent : Nat := x.magnitude / hiddenBit
  let fraction : Nat := x.magnitude % hiddenBit
  if exponent = 0 then (fraction, -1074) else (fraction + hiddenBit, Int.ofNat exponent - 1075)

def tenTo (n : Nat) : Float := (ofNat (Nat.pow 10 n)).toFloat

end Double
end ChainIndex
