import ChainIndex.Bytes.Basic

/-!
Amounts of the chain's smallest unit: whole numbers below 2^128, with arithmetic that stays at the
nearest bound instead of overflowing, and their decimal text.
-/
namespace ChainIndex

def Amount.bound : Nat := 0x100000000000000000000000000000000

structure Amount where
  units : Nat
  units_lt : units < Amount.bound
deriving DecidableEq

namespace Amount

instance : Repr Amount := ⟨fun a n => reprPrec a.units n⟩

def ofNat? (n : Nat) : Option Amount :=
  if h : n < bound then some ⟨n, h⟩ else none

def zero : Amount := ⟨0, by decide⟩

instance : Inhabited Amount := ⟨zero⟩

def add (a b : Amount) : Amount :=
  ⟨min (a.units + b.units) (bound - 1), by unfold bound; omega⟩

def sub (a b : Amount) : Amount :=
  ⟨a.units - b.units, by have := a.units_lt; omega⟩

instance : Add Amount := ⟨add⟩
instance : Sub Amount := ⟨sub⟩

def text (a : Amount) : String := toString a.units

def ofBytes? (bytes : Bytes) : Option Amount := bytes.toWord?.map fun word => ⟨word.toNat, word.isLt⟩

end Amount

namespace Decimal

def digits? : List Char → Option Nat
  | [] => none
  | cs => if cs.all Char.isDigit then some (cs.foldl (fun acc c => acc * 10 + (c.toNat - 48)) 0) else none

/-- A whole number as people may write it: one optional plus sign, then digits, leading zeros
allowed. -/
def natural? (text : String) : Option Nat :=
  match text.toList with
  | '+' :: rest => digits? rest
  | cs => digits? cs

end Decimal

def Amount.ofText? (text : String) : Option Amount := (Decimal.natural? text).bind Amount.ofNat?

namespace Saturating

def add (a b : UInt64) : UInt64 := (min (a.toNat + b.toNat) (UInt64.size - 1)).toUInt64

def sub (a b : UInt64) : UInt64 := (a.toNat - b.toNat).toUInt64

end Saturating
end ChainIndex
