import ChainIndex.Token.NftMetadata
import ChainIndex.Status

/-!
What single events say: typed changes of tokens, delegations, contracts and statuses.
-/
namespace ChainIndex

structure OwnerData where
  address : String := ""
  timestamp : UInt64 := 0
  txHash : String := ""
deriving DecidableEq, Repr, Inhabited

inductive TokenEventKind where
  /-- Issues or registers a token. -/
  | issue
  /-- Changes the type or a flag of a token. -/
  | change
  | transferOwnership
deriving DecidableEq, Repr

structure TokenInfo where
  kind : TokenEventKind
  token : String
  name : String
  ticker : String
  type : String
  decimals : Option UInt64
  issuer : String
  currentOwner : String
  ownerEntry : OwnerData
  changeToDynamic : Bool
  timestamp : UInt64
deriving DecidableEq, Repr

structure NftInfo where
  identifier : String
  token : String
  nonce : UInt64
  timestamp : UInt64
  data : Option NftMetadata
deriving DecidableEq, Repr

/-- A change of one non-fungible token; a pause concerns its whole collection. -/
inductive NftChange where
  | setAttributes (attributes : Bytes)
  | addUris (uris : List String)
  | setUris (uris : List String)
  | freeze
  | unFreeze
  | pause
  | unPause
  | recreateMetadata (data : NftMetadata)
  | updateMetadata (data : NftMetadata)
  | modifyCreator (creator : String)
  | modifyRoyalties (royalties : UInt32)
deriving DecidableEq, Repr

structure NftUpdate where
  identifier : String
  address : String
  change : NftChange
deriving DecidableEq, Repr

inductive SupplyKind where
  | burn
  | wipe
deriving DecidableEq, Repr

structure SupplyChange where
  kind : SupplyKind
  identifier : String
  token : String
  nonce : UInt64
  value : Amount
  timestamp : UInt64
deriving DecidableEq, Repr

structure RoleChange where
  role : String
  token : String
  address : String
  granted : Bool
deriving DecidableEq, Repr

structure PropertiesChange where
  token : String
  properties : Dict Bool
deriving DecidableEq, Repr

structure UnDelegateInfo where
  id : String := ""
  value : String := ""
  valueNum : Double := .zero
  timestamp : UInt64 := 0
deriving DecidableEq, Repr, Inhabited

structure StakeChange where
  address : String
  contract : String
  activeStake : String := ""
  activeStakeNum : Double := .zero
  timestamp : UInt64 := 0
  shouldDelete : Bool := false
  withdrawnFunds : List String := []
  unDelegated : Option UnDelegateInfo := none
deriving DecidableEq, Repr

structure Deployment where
  contract : String
  creator : String
  codeHash : String
  txHash : String
  timestamp : UInt64
deriving DecidableEq, Repr

structure Upgrade where
  contract : String
  upgrader : String
  codeHash : String
  txHash : String
  timestamp : UInt64
deriving DecidableEq, Repr

structure OwnerChange where
  contract : String
  owner : OwnerData
deriving DecidableEq, Repr

inductive Delta where
  | token (info : TokenInfo)
  | nftCreated (info : NftInfo)
  | nftUpdate (update : NftUpdate)
  | supply (change : SupplyChange)
  | role (change : RoleChange)
  | properties (change : PropertiesChange)
  | stake (change : StakeChange)
  | deployed (deployment : Deployment)
  | upgraded (upgrade : Upgrade)
  | ownerChanged (change : OwnerChange)
  | status (txHash : String) (signal : StatusInfo)
deriving DecidableEq, Repr

namespace OwnerData

def toJson (o : OwnerData) : Json :=
  .obj <| [("address", .str o.address), ("timestamp", .nat o.timestamp.toNat)] ++
    Json.textField "txHash" o.txHash

def ofJson? (j : Json) : Option OwnerData := do
  let [address, timestamp, txHash] ← j.record? ["address", "timestamp", "txHash"] | none
  return {
    address := ← address.required? Json.str?
    timestamp := ← timestamp.required? Json.uint64?
    txHash := ← txHash.orElse? "" Json.str? }

end OwnerData

namespace UnDelegateInfo

def toJson (u : UnDelegateInfo) : Json :=
  .obj [("id", .str u.id), ("value", .str u.value), ("valueNum", .double u.valueNum),
    ("timestamp", .nat u.timestamp.toNat)]

def ofJson? (j : Json) : Option UnDelegateInfo := do
  let [id, value, valueNum, timestamp] ← j.record? ["id", "value", "valueNum", "timestamp"] | none
  return {
    id := ← id.required? Json.str?
    value := ← value.required? Json.str?
    valueNum := ← valueNum.required? Json.double?
    timestamp := ← timestamp.required? Json.uint64? }

end UnDelegateInfo
end ChainIndex
