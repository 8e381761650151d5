import ChainIndex.Double.Range

/-!
Tokens of TOML texts. A scanner takes the text from where it stands and answers what it found with
the rest of the text, or nothing when the text is wrong there.
-/
namespace ChainIndex
namespace Toml

abbrev Scan (α : Type) := List Char → Option (α × List Char)

def isBlank (c : Char) : Bool := c == ' ' || c == '\t'

def skipBlanks (cs : List Char) : List Char := cs.dropWhile isBlank

def isControl (c : Char) : Bool := (c.toNat < 0x20 && c != '\t') || c.toNat == 0x7F

def skipComment (cs : List Char) : List Char :=
  match cs with
  | '#' :: rest => rest.dropWhile (!isControl ·)
  | _ => cs

def lineEnd? : List Char → Option (List Char)
  | '\n' :: rest => some rest
  | '\r' :: '\n' :: rest => some rest
  | _ => none

/-- The end of a statement: blanks, perhaps a comment, and the end of the line or of the text. -/
def statementEnd? (cs : List Char) : Option (List Char) :=
  match skipComment (skipBlanks cs) with
  | [] => some []
  | rest => lineEnd? rest

def skipOver : (comment : Bool) → List Char → List Char
  | _, [] => []
  | _, '\n' :: rest => skipOver false rest
  | _, '\r' :: '\n' :: rest => skipOver false rest
  | comment, c :: rest =>
    if comment then if isControl c then c :: rest else skipOver true rest
    else if isBlank c then skipOver false rest
    else if c == '#' then skipOver true rest
    else c :: rest

def skipLines (cs : List Char) : List Char := skipOver false cs

def hexValue? (c : Char) : Option Nat :=
  if c.isDigit then some (c.toNat - 48)
  else if 'a' ≤ c ∧ c ≤ 'f' then some (c.toNat - 87)
  else if 'A' ≤ c ∧ c ≤ 'F' then some (c.toNat - 55)
  else none

def coded? (digits : List Char) : Option Char := do
  let n := (← digits.mapM hexValue?).foldl (fun acc v => acc * 16 + v) 0
  if n.isValidChar then some (Char.ofNat n) else none

def escaped? : Char → Option Char
  | 'b' => some '\x08'
  | 't' => some '\t'
  | 'n' => some '\n'
  | 'f' => some '\x0c'
  | 'r' => some '\r'
  | '"' => some '"'
  | '\\' => some '\\'
  | _ => none

def before (c : Option Char) (found : Option (List Char × List Char)) :
    Option (List Char × List Char) := do
  let c ← c
  let (text, rest) ← found
  return (c :: text, rest)

def scanBasic : Scan (List Char)
  | '"' :: rest => some ([], rest)
  | '\\' :: 'u' :: a :: b :: c :: d :: rest => before (coded? [a, b, c, d]) (scanBasic rest)
  | '\\' :: 'U' :: a :: b :: c :: d :: e :: f :: g :: h :: rest =>
    before (coded? [a, b, c, d, e, f, g, h]) (scanBasic rest)
  | '\\' :: c :: rest => before (escaped? c) (scanBasic rest)
  | c :: rest => if isControl c || c == '\\' then none else before c (scanBasic rest)
  | [] => none

def scanLiteral : Scan (List Char)
  | '\'' :: rest => some ([], rest)
  | c :: rest => if isControl c then none else before c (scanLiteral rest)
  | [] => none

def joinsLines (cs : List Char) : Bool := (lineEnd? (skipBlanks cs)).isSome

/-- The inside of a string between three double quotes; of five at its end two are its own, of four
one. A backslash at the end of a line joins it with the next that is not blank: while `joining`,
blanks and line ends are passed over. -/
def scanLongBasic : (joining : Bool) → Scan (List Char)
  | _, '"' :: '"' :: '"' :: '"' :: '"' :: rest => some (['"', '"'], rest)
  | _, '"' :: '"' :: '"' :: '"' :: rest => some (['"'], rest)
  | _, '"' :: '"' :: '"' :: rest => some ([], rest)
  | _, '\\' :: 'u' :: a :: b :: c :: d :: rest =>
    before (coded? [a, b, c, d]) (scanLongBasic false rest)
  | _, '\\' :: 'U' :: a :: b :: c :: d :: e :: f :: g :: h :: rest =>
    before (coded? [a, b, c, d, e, f, g, h]) (scanLongBasic false rest)
  | _, '\\' :: c :: rest =>
    if joinsLines (c :: rest) then scanLongBasic true rest
    else before (escaped? c) (scanLongBasic false rest)
  | joining, '\r' :: '\n' :: rest =>
    if joining then scanLongBasic true rest else before '\n' (scanLongBasic false rest)
  | joining, c :: rest =>
    if joining && (isBlank c || c == '\n') then scanLongBasic true rest
    else if (isControl c && c != '\n') || c == '\\' then none
    else before c (scanLongBasic false rest)
  | _, [] => none

/-- The inside of a string between three single quotes; of five at its end two are its own, of four
one. -/
def scanLongLiteral : Scan (List Char)
  | '\'' :: '\'' :: '\'' :: '\'' :: '\'' :: rest => some (['\'', '\''], rest)
  | '\'' :: '\'' :: '\'' :: '\'' :: rest => some (['\''], rest)
  | '\'' :: '\'' :: '\'' :: rest => some ([], rest)
  | '\r' :: '\n' :: rest => before '\n' (scanLongLiteral rest)
  | c :: rest =>
    if isControl c && c != '\n' then none else before c (scanLongLiteral rest)
  | [] => none

def afterOpening (cs : List Char) : List Char := (lineEnd? cs).getD cs

def scanText (cs : List Char) : Option (String × List Char) :=
  let found :=
    match cs with
    | '"' :: '"' :: '"' :: rest => scanLongBasic false (afterOpening rest)
    | '"' :: rest => scanBasic rest
    | '\'' :: '\'' :: '\'' :: rest => scanLongLiteral (afterOpening rest)
    | '\'' :: rest => scanLiteral rest
    | _ => none
  found.map fun (text, rest) => (String.ofList text, rest)

def isBareKey (c : Char) : Bool := c.isAlphanum || c == '_' || c == '-'

def scanKeyPart : Scan String
  | '"' :: rest => (scanBasic rest).map fun (text, rest) => (String.ofList text, rest)
  | '\'' :: rest => (scanLiteral rest).map fun (text, rest) => (String.ofList text, rest)
  | cs =>
    match cs.takeWhile isBareKey with
    | [] => none
    | part => some (String.ofList part, cs.dropWhile isBareKey)

/-- At most `room` parts of a key with dots between them; blanks around them are passed over. -/
def scanKeyParts : (room : Nat) → Scan (List String)
  | 0, _ => none
  | room + 1, cs => do
    let (part, rest) ← scanKeyPart (skipBlanks cs)
    match skipBlanks rest with
    | '.' :: rest =>
      let (parts, rest) ← scanKeyParts room rest
      return (part :: parts, rest)
    | rest => return ([part], rest)

/-- A key has at most so many parts, and a value stands in at most so many arrays and tables. -/
def depthLimit : Nat := 79

def scanKey : Scan (List String) := scanKeyParts depthLimit

def digits? (isDigit : Char → Bool) (cs : List Char) : Option (List Char) :=
  match cs with
  | [] => none
  | [c] => if isDigit c then some [c] else none
  | c :: '_' :: rest => if isDigit c then (digits? isDigit rest).map (c :: ·) else none
  | c :: rest => if isDigit c then (digits? isDigit rest).map (c :: ·) else none

def valueOf (base : Nat) (digits : List Char) : Nat :=
  digits.foldl (fun n c => n * base + (hexValue? c).getD 0) 0

def radix? (base : Nat) (isDigit : Char → Bool) (cs : List Char) : Option Nat :=
  (digits? isDigit cs).map (valueOf base)

def decimal? (cs : List Char) : Option Nat := do
  match ← digits? Char.isDigit cs with
  | '0' :: _ :: _ => none
  | digits => return valueOf 10 digits

def intBound : Nat := 0x8000000000000000

/-- An integer: decimal with an optional sign, or hexadecimal, octal or binary without one. -/
def integer? : List Char → Option Int
  | '0' :: 'x' :: rest => (radix? 16 (fun c => (hexValue? c).isSome) rest).map Int.ofNat
  | '0' :: 'o' :: rest => (radix? 8 (fun c => '0' ≤ c && c ≤ '7') rest).map Int.ofNat
  | '0' :: 'b' :: rest => (radix? 2 (fun c => c == '0' || c == '1') rest).map Int.ofNat
  | '+' :: rest => (decimal? rest).map Int.ofNat
  | '-' :: rest => (decimal? rest).map fun n => -(n : Int)
  | cs => (decimal? cs).map Int.ofNat

def fraction? : List Char → Option (List Char)
  | [] => some []
  | _ :: rest => digits? Char.isDigit rest

def exponent? : List Char → Option Int
  | [] => some 0
  | _ :: '+' :: rest => (radix? 10 Char.isDigit rest).map Int.ofNat
  | _ :: '-' :: rest => (radix? 10 Char.isDigit rest).map fun n => -(n : Int)
  | _ :: rest => (radix? 10 Char.isDigit rest).map Int.ofNat

/-- A floating-point number without its sign: the significand and the power of ten that scales it.
It has a fraction, an exponent, or both. -/
def scaled? (cs : List Char) : Option (Nat × Int) := do
  let isExponent (c : Char) : Bool := c == 'e' || c == 'E'
  let mantissa := cs.takeWhile (!isExponent ·)
  let exponent := cs.dropWhile (!isExponent ·)
  let point := mantissa.dropWhile (· != '.')
  let whole ← decimal? (mantissa.takeWhile (· != '.'))
  let fraction ← fraction? point
  let e ← exponent? exponent
  if point.isEmpty && exponent.isEmpty then none
  else return (whole * Nat.pow 10 fraction.length + valueOf 10 fraction, e - fraction.length)

/-- Whether a token without its sign is a floating-point number. One too big for a double is none,
unless it is negative: that one stands for minus infinity. -/
def isUnsignedFloat (negative : Bool) (cs : List Char) : Bool :=
  cs == ['i', 'n', 'f'] || cs == ['n', 'a', 'n'] ||
    match scaled? cs with
    | some (significand, exponent) => negative || !Double.isBeyond significand exponent
    | none => false

def isFloat : List Char → Bool
  | '+' :: rest => isUnsignedFloat false rest
  | '-' :: rest => isUnsignedFloat true rest
  | cs => isUnsignedFloat false cs

def fits : List Char → List Char → Bool
  | [], [] => true
  | 'd' :: ps, c :: cs => c.isDigit && fits ps cs
  | p :: ps, c :: cs => p == c && fits ps cs
  | _, _ => false

def numberAt (start n : Nat) (cs : List Char) : Nat := valueOf 10 ((cs.drop start).take n)

/-- The days of a month in the calendar that has leap years by the rule of four, a hundred and four
hundred, for all years. -/
def daysIn (year month : Nat) : Nat :=
  if month = 2 then if year % 4 = 0 ∧ (year % 100 ≠ 0 ∨ year % 400 = 0) then 29 else 28
  else if month ∈ [4, 6, 9, 11] then 30
  else 31

def isDate (cs : List Char) : Bool :=
  let month := numberAt 5 2 cs
  let day := numberAt 8 2 cs
  fits "dddd-dd-dd".toList cs && 1 ≤ month && month ≤ 12 && 1 ≤ day &&
    day ≤ daysIn (numberAt 0 4 cs) month

def isClock (cs : List Char) : Bool :=
  fits "dd:dd".toList cs && numberAt 0 2 cs ≤ 23 && numberAt 3 2 cs ≤ 59

/-- A time of day, with or without a fraction of the second; a minute may end with a leap second. -/
def isTime (cs : List Char) : Bool :=
  isClock (cs.take 5) && fits ":dd".toList ((cs.drop 5).take 3) && numberAt 6 2 cs ≤ 60 &&
    match cs.drop 8 with
    | [] => true
    | '.' :: digits => !digits.isEmpty && digits.all Char.isDigit
    | _ => false

def isZone : List Char → Bool
  | [] => true
  | ['Z'] => true
  | ['z'] => true
  | '+' :: rest => isClock rest
  | '-' :: rest => isClock rest
  | _ => false

def isMoment (cs : List Char) : Bool :=
  let isZoneStart (c : Char) : Bool := c == 'Z' || c == 'z' || c == '+' || c == '-'
  let time := (cs.drop 11).takeWhile (!isZoneStart ·)
  let zone := (cs.drop 11).dropWhile (!isZoneStart ·)
  isDate cs || isTime cs ||
    (isDate (cs.take 10) && [' ', 'T', 't'].contains (cs.getD 10 'd') && isTime time && isZone zone)

end Toml
end ChainIndex
