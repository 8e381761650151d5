import ChainIndex.Bytes.Hex
import ChainIndex.Text.Utf8

/-!
Account addresses and their text. Any two functions may write and read them; the codec that comes with
the indexer writes lowercase hexadecimal, of a fixed length where one is set.
-/
namespace ChainIndex

inductive AddressError where
  | wrongLength (expected actual : Nat)
  | empty
  | notHex (fault : Hex.Fault)
deriving DecidableEq, Repr

def AddressError.message : AddressError → String
  | .wrongLength expected actual =>
    "invalid address length: expected " ++ toString expected ++ ", got " ++ toString actual
  | .empty => "empty address"
  | .notHex fault => "invalid hex: " ++ fault.message

structure AddressFormat where
  encode : Bytes → Except AddressError String
  decode : String → Except AddressError Bytes

def AddressFormat.encodeOrEmpty (format : AddressFormat) (address : Bytes) : String :=
  (format.encode address).toOption.getD ""

/-- Lowercase hexadecimal. With a length set, addresses of any other length are refused; without one
only the empty address is. -/
structure AddressCodec where
  length : Option Nat := none
deriving DecidableEq, Repr, Inhabited

namespace AddressCodec

def encode (codec : AddressCodec) (address : Bytes) : Except AddressError String :=
  match codec.length with
  | some expected =>
    if address.length = expected then .ok address.hex
    else .error (.wrongLength expected address.length)
  | none => if address.isEmpty then .error .empty else .ok address.hex

def decode (codec : AddressCodec) (text : String) : Except AddressError Bytes :=
  match Hex.decode (Utf8.encode text) with
  | .error fault => .error (.notHex fault)
  | .ok address =>
    match codec.length with
    | some expected =>
      if address.length = expected then .ok address
      else .error (.wrongLength expected address.length)
    | none => .ok address

def format (codec : AddressCodec) : AddressFormat := ⟨codec.encode, codec.decode⟩

instance : Coe AddressCodec AddressFormat := ⟨format⟩

instance : Inhabited AddressFormat := ⟨format {}⟩

def encodeOrEmpty (codec : AddressCodec) (address : Bytes) : String := codec.format.encodeOrEmpty address

end AddressCodec
end ChainIndex
