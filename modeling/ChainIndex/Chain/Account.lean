import ChainIndex.Token.Metadata

/-!
Accounts that a block altered, with the token balances they now hold.
-/
namespace ChainIndex

/-- A balance of one token; `identifier` is the token or collection, without a nonce, and `balance`
a decimal text. -/
structure TokenBalance where
  identifier : String := ""
  nonce : UInt64 := 0
  balance : String := ""
  properties : String := ""
  metadata : Option TokenMetadata := none
deriving DecidableEq, Repr, Inhabited

structure AlteredAccount where
  address : String := ""
  nonce : UInt64 := 0
  balance : String := ""
  tokens : List TokenBalance := []
deriving DecidableEq, Repr, Inhabited

namespace TokenBalance

def fieldNames : List String := ["identifier", "nonce", "balance", "properties", "metadata"]

def toJson (t : TokenBalance) : Json :=
  .obj [("identifier", .str t.identifier), ("nonce", .nat t.nonce.toNat), ("balance", .str t.balance),
    ("properties", .str t.properties), ("metadata", .option TokenMetadata.toJson t.metadata)]

def ofJson? (j : Json) : Option TokenBalance := do
  let [identifier, nonce, balance, properties, metadata] ← j.record? fieldNames | none
  return {
    identifier := ← identifier.required? Json.str?
    nonce := ← nonce.required? Json.uint64?
    balance := ← balance.required? Json.str?
    properties := ← properties.required? Json.str?
    metadata := ← metadata.optional? TokenMetadata.ofJson? }

end TokenBalance

namespace AlteredAccount

def fieldNames : List String := ["address", "nonce", "balance", "tokens"]

def toJson (a : AlteredAccount) : Json :=
  .obj [("address", .str a.address), ("nonce", .nat a.nonce.toNat), ("balance", .str a.balance),
    ("tokens", .arr (a.tokens.map TokenBalance.toJson))]

def ofJson? (j : Json) : Option AlteredAccount := do
  let [address, nonce, balance, tokens] ← j.record? fieldNames | none
  return {
    address := ← address.required? Json.str?
    nonce := ← nonce.required? Json.uint64?
    balance := ← balance.required? Json.str?
    tokens := ← tokens.required? (Json.list? TokenBalance.ofJson?) }

end AlteredAccount
end ChainIndex
