import ChainIndex.Bytes.Hex

/-!
Identifiers of single non-fungible tokens: the collection and the nonce in hexadecimal.
-/
namespace ChainIndex

def nonceHex (nonce : UInt64) : String := (Bytes.ofNat nonce.toNat).hex

def nftIdentifier (token : String) (nonce : UInt64) : String := token ++ "-" ++ nonceHex nonce

end ChainIndex
