import ChainIndex.Json.Basic
import ChainIndex.Double.Literal
import ChainIndex.Text.Utf8

/-!
Reading JSON from octets: the grammar of RFC 8259 and nothing beside it.
-/
namespace ChainIndex
namespace Json

def isBlank (b : UInt8) : Bool := b == 0x20 || b == 0x09 || b == 0x0A || b == 0x0D

def skipBlanks (input : Bytes) : Bytes := input.dropWhile isBlank

def isDigit (b : UInt8) : Bool := 0x30 ≤ b && b ≤ 0x39

def digitsOf (octets : Bytes) : List Nat := octets.map fun b => b.toNat - 0x30

def numberOf (digits : List Nat) : Nat := digits.foldl (fun acc d => acc * 10 + d) 0

/-- A character of a string token: an octet as it stands, or the unit of a numeric escape. -/
inductive Piece where
  | octet (b : UInt8)
  | unit (n : Nat)
deriving DecidableEq, Repr

def hexValue? (b : UInt8) : Option Nat :=
  let n := b.toNat
  if 48 ≤ n ∧ n ≤ 57 then some (n - 48)
  else if 97 ≤ n ∧ n ≤ 102 then some (n - 87)
  else if 65 ≤ n ∧ n ≤ 70 then some (n - 55)
  else none

def unit? (a b c d : UInt8) : Option Nat := do
  let a ← hexValue? a
  let b ← hexValue? b
  let c ← hexValue? c
  let d ← hexValue? d
  return ((a * 16 + b) * 16 + c) * 16 + d

def escaped? (b : UInt8) : Option UInt8 :=
  match b with
  | 0x22 => some 0x22
  | 0x5C => some 0x5C
  | 0x2F => some 0x2F
  | 0x62 => some 0x08
  | 0x66 => some 0x0C
  | 0x6E => some 0x0A
  | 0x72 => some 0x0D
  | 0x74 => some 0x09
  | _ => none

/-- The pieces of a string token after its opening quote, and what follows the closing one. -/
def scanPieces (taken : List Piece) : Bytes → Option (List Piece × Bytes)
  | 0x22 :: rest => some (taken.reverse, rest)
  | 0x5C :: 0x75 :: a :: b :: c :: d :: rest =>
    match unit? a b c d with
    | some n => scanPieces (.unit n :: taken) rest
    | none => none
  | 0x5C :: e :: rest =>
    match escaped? e with
    | some b => scanPieces (.octet b :: taken) rest
    | none => none
  | b :: rest => if b < 0x20 ∨ b = 0x5C then none else scanPieces (.octet b :: taken) rest
  | [] => none

/-- The three octets of a number below 2^16, as UTF-8 would write it; half a surrogate pair gives
octets that no text has. -/
def wideOctets (n : Nat) : Bytes :=
  if n < 0x80 then [n.toUInt8]
  else if n < 0x800 then [(0xC0 + n / 64).toUInt8, (0x80 + n % 64).toUInt8]
  else [(0xE0 + n / 4096).toUInt8, (0x80 + n / 64 % 64).toUInt8, (0x80 + n % 64).toUInt8]

def isHighSurrogate (n : Nat) : Bool := 0xD800 ≤ n && n < 0xDC00

def isLowSurrogate (n : Nat) : Bool := 0xDC00 ≤ n && n < 0xE000

def joinPieces : List Piece → Bytes
  | [] => []
  | .octet b :: rest => b :: joinPieces rest
  | .unit high :: .unit low :: rest =>
    if isHighSurrogate high && isLowSurrogate low then
      String.utf8EncodeChar (Char.ofNat (0x10000 + (high - 0xD800) * 0x400 + (low - 0xDC00))) ++
        joinPieces rest
    else wideOctets high ++ joinPieces (.unit low :: rest)
  | .unit n :: rest => wideOctets n ++ joinPieces rest

def scanText (input : Bytes) : Option (Option String × Bytes) :=
  (scanPieces [] input).map fun (pieces, rest) => (Utf8.decode? (joinPieces pieces), rest)

def scanFraction (input : Bytes) : Option (List Nat × Bytes) :=
  match input with
  | 0x2E :: rest =>
    match rest.takeWhile isDigit with
    | [] => none
    | digits => some (digitsOf digits, rest.dropWhile isDigit)
  | _ => some ([], input)

def scanExponent (input : Bytes) : Option (Option Int × Bytes) :=
  let digits (negative : Bool) (rest : Bytes) : Option (Option Int × Bytes) :=
    match rest.takeWhile isDigit with
    | [] => none
    | octets =>
      let n : Int := numberOf (digitsOf octets)
      some (some (if negative then -n else n), rest.dropWhile isDigit)
  let signed : Bytes → Option (Option Int × Bytes)
    | 0x2B :: rest => digits false rest
    | 0x2D :: rest => digits true rest
    | rest => digits false rest
  match input with
  | 0x65 :: rest => signed rest
  | 0x45 :: rest => signed rest
  | _ => some (none, input)

/-- The greatest exponent of ten among the doubles: an integer of so many digits is never too big
for one. -/
def doubleDigits : Nat := 308

/-- The value of a number token. An integer is kept whole unless it is too big even for a double;
minus zero is a double. -/
def numeral (negative : Bool) (whole fraction : List Nat) (exponent : Option Int) : Json :=
  match fraction, exponent with
  | [], none =>
    let n := numberOf whole
    if negative ∧ n = 0 then .real .negativeZero
    else if whole.length ≤ doubleDigits ∨ (Double.ofLiteral? negative whole [] 0).isSome then
      .int (if negative then -(n : Int) else n)
    else .unreadable
  | _, _ =>
    match Double.ofLiteral? negative whole fraction (exponent.getD 0) with
    | some x => .real x
    | none => .unreadable

/-- A number token after its sign, and what follows it: a whole part without idle leading zeros,
then an optional fraction and an optional exponent. -/
def scanNumber (negative : Bool) (input : Bytes) : Option (Json × Bytes) := do
  let whole := input.takeWhile isDigit
  match whole with
  | [] => none
  | [_] => pure ()
  | first :: _ => if first = 0x30 then none else pure ()
  let (fraction, rest) ← scanFraction (input.dropWhile isDigit)
  let (exponent, rest) ← scanExponent rest
  return (numeral negative (digitsOf whole) fraction exponent, rest)

def object (members : List (Option String × Json)) : Json :=
  match members.mapM fun (name, value) => name.map (·, value) with
  | some members => .obj members
  | none => .unreadable

mutual

def scanValue : Nat → Bytes → Option (Json × Bytes)
  | 0, _ => none
  | fuel + 1, input =>
    match skipBlanks input with
    | 0x6E :: 0x75 :: 0x6C :: 0x6C :: rest => some (.null, rest)
    | 0x74 :: 0x72 :: 0x75 :: 0x65 :: rest => some (.bool true, rest)
    | 0x66 :: 0x61 :: 0x6C :: 0x73 :: 0x65 :: rest => some (.bool false, rest)
    | 0x22 :: rest =>
      (scanText rest).map fun (text, rest) => ((text.map Json.str).getD .unreadable, rest)
    | 0x5B :: rest =>
      match skipBlanks rest with
      | 0x5D :: rest => some (.arr [], rest)
      | rest => (scanItems fuel rest).map fun (items, rest) => (.arr items, rest)
    | 0x7B :: rest =>
      match skipBlanks rest with
      | 0x7D :: rest => some (.obj [], rest)
      | rest => (scanMembers fuel rest).map fun (members, rest) => (object members, rest)
    | 0x2D :: rest => scanNumber true rest
    | rest => scanNumber false rest

def scanItems : Nat → Bytes → Option (List Json × Bytes)
  | 0, _ => none
  | fuel + 1, input =>
    match scanValue fuel input with
    | none => none
    | some (item, rest) =>
      match skipBlanks rest with
      | 0x5D :: rest => some ([item], rest)
      | 0x2C :: rest => (scanItems fuel rest).map fun (items, rest) => (item :: items, rest)
      | _ => none

def scanMembers : Nat → Bytes → Option (List (Option String × Json) × Bytes)
  | 0, _ => none
  | fuel + 1, input =>
    match skipBlanks input with
    | 0x22 :: rest =>
      match scanText rest with
      | none => none
      | some (name, rest) =>
        match skipBlanks rest with
        | 0x3A :: rest =>
          match scanValue fuel rest with
          | none => none
          | some (value, rest) =>
            match skipBlanks rest with
            | 0x7D :: rest => some ([(name, value)], rest)
            | 0x2C :: rest =>
              (scanMembers fuel rest).map fun (members, rest) => ((name, value) :: members, rest)
            | _ => none
        | _ => none
    | _ => none

end

/-- One JSON text with blanks around it. Every nested step takes an octet, so the length of the
input bounds them. -/
def parse? (input : Bytes) : Option Json :=
  match scanValue (input.length + 1) input with
  | some (value, rest) => if (skipBlanks rest).isEmpty then some value else none
  | none => none

end Json
end ChainIndex
