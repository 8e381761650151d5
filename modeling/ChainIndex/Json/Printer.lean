import ChainIndex.Json.Basic
import ChainIndex.Double.Shortest

/-!
The compact text of JSON: no blanks, members in the order of the tree.
-/
namespace ChainIndex
namespace Json

def hexDigit (n : Nat) : Char := Char.ofNat (if n < 10 then 48 + n else 87 + n)

def escape (c : Char) : List Char :=
  if c = '"' then ['\\', '"']
  else if c = '\\' then ['\\', '\\']
  else if 0x20 ≤ c.toNat then [c]
  else
    match c.toNat with
    | 8 => ['\\', 'b']
    | 9 => ['\\', 't']
    | 10 => ['\\', 'n']
    | 12 => ['\\', 'f']
    | 13 => ['\\', 'r']
    | n => ['\\', 'u', '0', '0', hexDigit (n / 16), hexDigit (n % 16)]

def printText (text : String) : List Char :=
  '"' :: (text.toList.flatMap escape ++ ['"'])

def printInt (z : Int) : List Char :=
  (if z < 0 then ['-'] else []) ++ Nat.toDigits 10 z.natAbs

mutual

def print : Json → List Char
  | .null => ['n', 'u', 'l', 'l']
  | .bool true => ['t', 'r', 'u', 'e']
  | .bool false => ['f', 'a', 'l', 's', 'e']
  | .int z => printInt z
  | .real x => x.write
  | .str s => printText s
  | .arr items => '[' :: (printItems items ++ [']'])
  | .obj members => '{' :: (printMembers members ++ ['}'])
  | .unreadable => ['n', 'u', 'l', 'l']

def printItems : List Json → List Char
  | [] => []
  | [item] => print item
  | item :: rest => print item ++ ',' :: printItems rest

def printMembers : List (String × Json) → List Char
  | [] => []
  | [(name, value)] => printText name ++ ':' :: print value
  | (name, value) :: rest => printText name ++ ':' :: (print value ++ ',' :: printMembers rest)

end

def text (j : Json) : String := String.ofList j.print

end Json
end ChainIndex
