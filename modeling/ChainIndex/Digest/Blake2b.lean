import ChainIndex.Bytes.Basic

/-!
The BLAKE2b digest without a key: twelve rounds of mixing over 64-bit words, on blocks of 128 octets.
-/
namespace ChainIndex
namespace Blake2b

def initial : Array UInt64 := #[
  0x6a09e667f3bcc908, 0xbb67ae8584caa73b, 0x3c6ef372fe94f82b, 0xa54ff53a5f1d36f1,
  0x510e527fade682d1, 0x9b05688c2b3e6c1f, 0x1f83d9abfb41bd6b, 0x5be0cd19137e2179]

def schedule : List (List Nat) := [
  [0, 1, 2, 3, 4, 5, 6, 7, 8, 9, 10, 11, 12, 13, 14, 15],
  [14, 10, 4, 8, 9, 15, 13, 6, 1, 12, 0, 2, 11, 7, 5, 3],
  [11, 8, 12, 0, 5, 2, 15, 13, 10, 14, 3, 6, 7, 1, 9, 4],
  [7, 9, 3, 1, 13, 12, 11, 14, 2, 6, 5, 10, 4, 0, 15, 8],
  [9, 0, 5, 7, 2, 4, 10, 15, 14, 1, 11, 12, 6, 8, 3, 13],
  [2, 12, 6, 10, 0, 11, 8, 3, 4, 13, 7, 5, 15, 14, 1, 9],
  [12, 5, 1, 15, 14, 13, 4, 10, 0, 7, 6, 3, 9, 2, 8, 11],
  [13, 11, 7, 14, 12, 1, 3, 9, 5, 0, 15, 4, 8, 6, 2, 10],
  [6, 15, 14, 9, 11, 3, 0, 8, 12, 2, 13, 7, 1, 4, 10, 5],
  [10, 2, 8, 4, 7, 6, 1, 5, 15, 11, 9, 14, 3, 12, 13, 0],
  [0, 1, 2, 3, 4, 5, 6, 7, 8, 9, 10, 11, 12, 13, 14, 15],
  [14, 10, 4, 8, 9, 15, 13, 6, 1, 12, 0, 2, 11, 7, 5, 3]]

/-- The four columns and then the four diagonals that a round mixes. -/
def lanes : List (Nat × Nat × Nat × Nat) := [
  (0, 4, 8, 12), (1, 5, 9, 13), (2, 6, 10, 14), (3, 7, 11, 15),
  (0, 5, 10, 15), (1, 6, 11, 12), (2, 7, 8, 13), (3, 4, 9, 14)]

def rotateRight (x : UInt64) (n : UInt64) : UInt64 := (x >>> n) ||| (x <<< (64 - n))

def word (v : Array UInt64) (i : Nat) : UInt64 := v.getD i 0

def mix (v : Array UInt64) (lane : Nat × Nat × Nat × Nat) (x y : UInt64) : Array UInt64 :=
  let (i, j, k, l) := lane
  let a := word v i + word v j + x
  let d := rotateRight (word v l ^^^ a) 32
  let c := word v k + d
  let b := rotateRight (word v j ^^^ c) 24
  let a := a + b + y
  let d := rotateRight (d ^^^ a) 16
  let c := c + d
  let b := rotateRight (b ^^^ c) 63
  (((v.setIfInBounds i a).setIfInBounds j b).setIfInBounds k c).setIfInBounds l d

def mixLanes (block : Array UInt64) (v : Array UInt64) :
    List (Nat × Nat × Nat × Nat) → List Nat → Array UInt64
  | lane :: lanes, x :: y :: order => mixLanes block (mix v lane (word block x) (word block y)) lanes order
  | _, _ => v

def wordOf (octets : Bytes) : UInt64 := (Bytes.toNat (octets.take 8).reverse).toUInt64

def wordsOf (octets : Bytes) : Array UInt64 :=
  ((List.range 16).map fun i => wordOf (octets.drop (8 * i))).toArray

def octetsOf (w : UInt64) : Bytes := (List.range 8).map fun i => (w >>> (8 * i).toUInt64).toUInt8

def compress (state : Array UInt64) (block : Bytes) (count : Nat) (isLast : Bool) : Array UInt64 :=
  let words := wordsOf block
  let v := state ++ initial
  let v := v.setIfInBounds 12 (word v 12 ^^^ count.toUInt64)
  let v := v.setIfInBounds 13 (word v 13 ^^^ (count / UInt64.size).toUInt64)
  let v := if isLast then v.setIfInBounds 14 (word v 14 ^^^ 0xFFFFFFFFFFFFFFFF) else v
  let v := schedule.foldl (fun v order => mixLanes words v lanes order) v
  ((List.range 8).map fun i => word state i ^^^ word v i ^^^ word v (i + 8)).toArray

def absorb (state : Array UInt64) (count : Nat) (input : Bytes) : Array UInt64 :=
  if 128 < input.length then
    absorb (compress state (input.take 128) (count + 128) false) (count + 128) (input.drop 128)
  else
    compress state (input ++ List.replicate (128 - input.length) 0) (count + input.length) true
termination_by input.length
decreasing_by simp; omega

def digest (size : Nat) (input : Bytes) : Bytes :=
  let start := initial.setIfInBounds 0 (word initial 0 ^^^ (0x01010000 + size).toUInt64)
  ((absorb start 0 input).toList.flatMap octetsOf).take size

end Blake2b
end ChainIndex
