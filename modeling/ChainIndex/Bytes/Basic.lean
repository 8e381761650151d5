/-!
Octet strings, and the numbers they denote: the most significant octet comes first and leading
zeros carry no value. Numbers are read into words of fixed width.
-/
namespace ChainIndex

abbrev Bytes := List UInt8

namespace Bytes

def toNat (bytes : Bytes) : Nat :=
  bytes.foldl (fun acc b => acc * 256 + b.toNat) 0

def significant (bytes : Bytes) : Bytes := bytes.dropWhile (· == 0)

def shiftIn (word : BitVec 128) (b : UInt8) : BitVec 128 := word <<< 8 ||| b.toBitVec.setWidth 128

def shifted (bytes : Bytes) : BitVec 128 := bytes.foldl shiftIn 0#128

/-- The octets in a word; none when more than sixteen of them count. -/
def toWord? (bytes : Bytes) : Option (BitVec 128) :=
  if bytes.significant.length ≤ 16 then some (shifted bytes.significant) else none

def narrow? (word : BitVec 128) : Option UInt64 :=
  if word.toNat < UInt64.size then some word.toNat.toUInt64 else none

def toNonce? (bytes : Bytes) : Option UInt64 := bytes.toWord?.bind narrow?

def toUInt64Saturating (bytes : Bytes) : UInt64 :=
  (bytes.toWord?.bind narrow?).getD 0xFFFFFFFFFFFFFFFF

def isTrue (bytes : Bytes) : Bool :=
  bytes == [0x74, 0x72, 0x75, 0x65]

def digits256 (n : Nat) : Bytes :=
  if n = 0 then [] else digits256 (n / 256) ++ [(n % 256).toUInt8]

def ofNat (n : Nat) : Bytes :=
  if n = 0 then [0] else digits256 n

end Bytes
end ChainIndex
