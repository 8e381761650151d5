import ChainIndex.Chain.Account
import ChainIndex.Token.Identifier
import ChainIndex.Token.NftMetadata
import ChainIndex.Denomination
import ChainIndex.Write.Action

/-!
The documents of token balances. Each carries the time stamp and the shard of the block that wrote
it, which is what a revert selects by. A balance of nothing has no document.
-/
namespace ChainIndex

/-- Address and token and, unless it is zero, the nonce, between dashes. -/
def balanceId (address token : String) (nonce : UInt64) : String :=
  if nonce = 0 then address ++ "-" ++ token else address ++ "-" ++ token ++ "-" ++ nonceHex nonce

/-- An empty text is a balance of zero. -/
def isZeroBalance (balance : String) : Bool :=
  balance.isEmpty || (Amount.ofText? balance).any (·.units == 0)

structure BalanceWriter where
  codec : AddressFormat
  denomination : Denomination
  timestamp : UInt64
  shard : UInt32

namespace BalanceWriter

def document (w : BalanceWriter) (address : String) (t : TokenBalance) : Value :=
  let identifier := if t.nonce = 0 then t.identifier else nftIdentifier t.identifier t.nonce
  let properties := if t.properties.isEmpty then [] else [("properties", Value.str t.properties)]
  let data := t.metadata.toList.map fun m => ("data", (NftMetadata.ofRaw w.codec m).toJson.toValue)
  .record ([("address", .str address), ("token", .str t.identifier), ("identifier", .str identifier),
    ("tokenNonce", .nat t.nonce), ("balance", .str t.balance),
    ("balanceNum", .double (w.denomination.textToDouble t.balance)), ("timestamp", .nat w.timestamp),
    ("shardID", .nat w.shard.toUInt64)] ++ properties ++ data)

def write (w : BalanceWriter) (address : String) (t : TokenBalance) : WriteItem where
  id := balanceId address t.identifier t.nonce
  action := if isZeroBalance t.balance then .delete else .overwrite (w.document address t)

def writes (w : BalanceWriter) (accounts : Dict AlteredAccount) : List WriteItem :=
  accounts.values.flatMap fun a => a.tokens.map (w.write a.address)

def skipped (_ : BalanceWriter) (_ : Dict AlteredAccount) : List String := []

end BalanceWriter
end ChainIndex
