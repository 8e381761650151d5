import ChainIndex.Double.Basic

/-!
How far the doubles reach.
-/
namespace ChainIndex
namespace Double

/-- Half a step above the greatest finite double, `(2^54 - 1) · 2^970`: what is as big as that is
rounded to infinity. -/
def rangeEnd : Nat := (4 * hiddenBit - 1) <<< 970

/-- Whether `n · 10^exponent` is beyond the finite doubles. Powers of ten that settle the answer
alone are not computed: `10^309` is beyond them, and `10^k` is greater than `2^(3k)`. -/
def isBeyond (n : Nat) (exponent : Int) : Bool :=
  if n = 0 then false
  else
    match exponent with
    | .ofNat e => 309 ≤ e || rangeEnd ≤ n * Nat.pow 10 e
    | .negSucc e => 3 * (e + 1) ≤ n.log2 && rangeEnd * Nat.pow 10 (e + 1) ≤ n

end Double
end ChainIndex
