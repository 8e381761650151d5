import ChainIndex.Bytes.Basic

/-!
UTF-8. The decoder is a small state machine over octets. What it cannot decode it reports piece by
piece: each longest beginning of a well-formed sequence is one piece, and so is every octet that
begins none.
-/
namespace ChainIndex

namespace Utf8

/-- Where a decoder stands between two octets: at a character boundary, or inside a character that
needs `more` further octets, the next one between `low` and `high`. -/
inductive State where
  | boundary
  | inside (more : Nat) (low high : UInt8) (value : Nat)
deriving DecidableEq, Repr

def start (b : UInt8) : List (Option Char) × State :=
  let n := b.toNat
  if n < 0x80 then ([some (Char.ofNat n)], .boundary)
  else if n < 0xC2 then ([none], .boundary)
  else if n < 0xE0 then ([], .inside 1 0x80 0xBF (n - 0xC0))
  else if n = 0xE0 then ([], .inside 2 0xA0 0xBF 0)
  else if n = 0xED then ([], .inside 2 0x80 0x9F 0xD)
  else if n < 0xF0 then ([], .inside 2 0x80 0xBF (n - 0xE0))
  else if n = 0xF0 then ([], .inside 3 0x90 0xBF 0)
  else if n < 0xF4 then ([], .inside 3 0x80 0xBF (n - 0xF0))
  else if n = 0xF4 then ([], .inside 3 0x80 0x8F 4)
  else ([none], .boundary)

/-- One octet. An octet that cannot continue a character ends it as a piece and starts anew. -/
def step : State → UInt8 → List (Option Char) × State
  | .boundary, b => start b
  | .inside more low high value, b =>
    if low ≤ b ∧ b ≤ high then
      let value := value * 64 + (b.toNat - 0x80)
      if more ≤ 1 then ([some (Char.ofNat value)], .boundary)
      else ([], .inside (more - 1) 0x80 0xBF value)
    else
      let (out, next) := start b
      (none :: out, next)

def finish : State → List (Option Char)
  | .boundary => []
  | .inside _ _ _ _ => [none]

def pieces : State → Bytes → List (Option Char)
  | state, [] => finish state
  | state, b :: rest =>
    let (out, next) := step state b
    out ++ pieces next rest

def decode? (bytes : Bytes) : Option String :=
  ((pieces .boundary bytes).mapM id).map String.ofList

def decodeLossy (bytes : Bytes) : String :=
  String.ofList ((pieces .boundary bytes).map (·.getD '\uFFFD'))

def encode (text : String) : Bytes :=
  text.toList.flatMap String.utf8EncodeChar

end Utf8
end ChainIndex
