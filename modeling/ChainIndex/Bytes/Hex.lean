import ChainIndex.Bytes.Basic

/-!
Hexadecimal text: two lowercase digits for every octet. Reading takes both cases.
-/
namespace ChainIndex

namespace Hex

def digit (n : Nat) : Char :=
  if n < 10 then Char.ofNat (48 + n) else Char.ofNat (87 + n)

def encodeOctet (b : UInt8) : List Char :=
  [digit (b.toNat / 16), digit (b.toNat % 16)]

def digitValue? (b : UInt8) : Option Nat :=
  let n := b.toNat
  if 48 ≤ n ∧ n ≤ 57 then some (n - 48)
  else if 97 ≤ n ∧ n ≤ 102 then some (n - 87)
  else if 65 ≤ n ∧ n ≤ 70 then some (n - 55)
  else none

inductive Fault where
  | oddLength
  | notADigit (octet : UInt8) (position : Nat)
deriving DecidableEq, Repr

def decodePairs (position : Nat) : Bytes → Except Fault Bytes
  | high :: low :: rest =>
    match digitValue? high, digitValue? low with
    | none, _ => .error (.notADigit high position)
    | some _, none => .error (.notADigit low (position + 1))
    | some h, some l => (decodePairs (position + 2) rest).map ((h * 16 + l).toUInt8 :: ·)
  | [_] => .error .oddLength
  | [] => .ok []

def decode (octets : Bytes) : Except Fault Bytes :=
  if octets.length % 2 = 1 then .error .oddLength else decodePairs 0 octets

/-- An octet shown as a quoted Latin-1 character: escapes for the quote, the backslash and the
usual controls, a code in braces for characters that have no glyph. -/
def quoteOctet (b : UInt8) : String :=
  let n := b.toNat
  let shown :=
    if n = 0 then "\\0"
    else if n = 9 then "\\t"
    else if n = 10 then "\\n"
    else if n = 13 then "\\r"
    else if n = 39 then "\\'"
    else if n = 92 then "\\\\"
    else if n < 32 ∨ (127 ≤ n ∧ n ≤ 160) ∨ n = 173 then
      "\\u\x7b" ++ String.ofList (Nat.toDigits 16 n) ++ "\x7d"
    else String.singleton (Char.ofNat n)
  "'" ++ shown ++ "'"

def Fault.message : Fault → String
  | .oddLength => "Odd number of digits"
  | .notADigit octet position => "Invalid character " ++ quoteOctet octet ++ " at position " ++ toString position

end Hex

def Bytes.hex (bytes : Bytes) : String :=
  String.ofList (bytes.flatMap Hex.encodeOctet)

end ChainIndex
