import ChainIndex.Double.Basic

/-!
The shortest decimal that reads back as a double, and its written form: positional from `0.00001`
up to sixteen digits before the point, scientific outside.
-/
namespace ChainIndex
namespace Double

/-- The numbers that round to a double, in units of `2^unit`: `low` and `high` belong to them when
`closed`. -/
structure Interval where
  low : Nat
  middle : Nat
  high : Nat
  unit : Int
  closed : Bool
deriving Repr

/-- Half the way to each neighbour. Below a power of two the neighbour is nearer. -/
def interval (x : Double) : Interval :=
  let (m, q) := x.decompose
  let low := if m = hiddenBit ∧ q ≠ -1074 then 4 * m - 1 else 4 * m - 2
  ⟨low, 4 * m, 4 * m + 2, q - 2, m % 2 = 0⟩

def Interval.over (i : Interval) (place : Int) (a : Nat) : Nat × Nat :=
  ((a <<< i.unit.toNat) * Nat.pow 10 (-place).toNat, (1 <<< (-i.unit).toNat) * Nat.pow 10 place.toNat)

def Interval.holds (i : Interval) (place : Int) (n : Nat) : Bool :=
  let (low, den) := i.over place i.low
  let (high, _) := i.over place i.high
  if i.closed then low ≤ n * den && n * den ≤ high else low < n * den && n * den < high

def Interval.leading (i : Interval) : Int :=
  let below (e : Int) : Bool := let (num, den) := i.over e i.middle; den ≤ num
  let guess := ((i.middle.log2 : Int) + i.unit) * 30103 / 100000
  if below (guess + 1) then guess + 1 else if below guess then guess else guess - 1

/-- The point of the grid `10^place` that rounds to the double and lies nearest to it, a tie going to
the even one. -/
def Interval.nearest? (i : Interval) (place : Int) : Option Nat :=
  let (num, den) := i.over place i.middle
  let n := num / den
  let r := num % den
  let up := den < 2 * r || (den == 2 * r && n % 2 == 1)
  match i.holds place n, i.holds place (n + 1) with
  | true, true => some (if up then n + 1 else n)
  | true, false => some n
  | false, true => some (n + 1)
  | false, false => none

def Interval.search (i : Interval) (place : Int) : Nat → Nat × Int
  | 0 => (i.over place i.middle |> fun (num, den) => num / den, place)
  | more + 1 =>
    match i.nearest? place with
    | some n => (n, place)
    | none => i.search (place - 1) more

/-- `digits · 10^place` with the fewest digits that read back as the double. -/
def shortest (x : Double) : Nat × Int :=
  let i := x.interval
  match i.search i.leading 17 with
  | (10, place) => (1, place + 1)
  | found => found

/-- How doubles are written: the least and the first exponent beyond positional notation. -/
def positionalFrom : Int := -5
def positionalBelow : Int := 16

def zeros (n : Nat) : List Char := List.replicate n '0'

def writeDigits (digits : List Char) (place : Int) : List Char :=
  let exponent := place + digits.length - 1
  if positionalFrom ≤ exponent ∧ exponent < positionalBelow then
    if 0 ≤ place then digits ++ zeros place.toNat ++ ['.', '0']
    else if 0 ≤ exponent then
      digits.take (exponent.toNat + 1) ++ '.' :: digits.drop (exponent.toNat + 1)
    else '0' :: '.' :: zeros (-exponent - 1).toNat ++ digits
  else
    let mantissa :=
      match digits with
      | [d] => [d]
      | d :: rest => d :: '.' :: rest
      | [] => []
    let sign := if exponent < 0 then '-' else '+'
    mantissa ++ 'e' :: sign :: Nat.toDigits 10 exponent.natAbs

def write (x : Double) : List Char :=
  let sign := if x.isNegative then ['-'] else []
  if x.isZero then sign ++ ['0', '.', '0']
  else
    let (digits, place) := x.shortest
    sign ++ writeDigits (Nat.toDigits 10 digits) place

end Double
end ChainIndex
