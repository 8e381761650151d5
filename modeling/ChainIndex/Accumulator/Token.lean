import ChainIndex.Event.Delta
import ChainIndex.Write.Action

/-!
What a block says about one token or collection, and the write of its document. Of single facts the
last counts, except that an issue never replaces an earlier one; the history of owners grows.
-/
namespace ChainIndex

structure TokenStatic where
  name : String := ""
  ticker : String := ""
  type : String := ""
  decimals : Option UInt64 := none
deriving DecidableEq, Repr, Inhabited

structure TokenAccumulator where
  static : Option TokenStatic := none
  issuer : Option String := none
  initialOwner : Option String := none
  issuedAt : Option UInt64 := none
  /-- The owner that the last transfer of ownership named. -/
  currentOwner : Option String := none
  ownersHistory : List OwnerData := []
  changeToDynamic : Bool := false
  /-- Whether a role is granted, by role and address. -/
  roles : Dict (Dict Bool) := []
  properties : Dict Bool := []
  paused : Option Bool := none
deriving DecidableEq, Repr, Inhabited

namespace TokenAccumulator

def describe (acc : TokenAccumulator) (info : TokenInfo) : TokenAccumulator :=
  { acc with
    static := some {
      name := info.name
      ticker := info.ticker
      type := info.type
      decimals := info.decimals <|> (acc.static.bind (·.decimals)) }
    changeToDynamic := acc.changeToDynamic || info.changeToDynamic }

def addToken (acc : TokenAccumulator) (info : TokenInfo) : TokenAccumulator :=
  match info.kind with
  | .change => acc.describe info
  | .issue =>
    let acc := acc.describe info
    { acc with
      issuer := acc.issuer <|> some info.issuer
      initialOwner := acc.initialOwner <|> some info.currentOwner
      issuedAt := acc.issuedAt <|> some info.timestamp
      ownersHistory := acc.ownersHistory ++ [info.ownerEntry] }
  | .transferOwnership =>
    { acc with
      currentOwner := some info.currentOwner
      ownersHistory := acc.ownersHistory ++ [info.ownerEntry] }

def addRole (acc : TokenAccumulator) (change : RoleChange) : TokenAccumulator :=
  { acc with
    roles := acc.roles.alter change.role fun held => (held.getD []).insert change.address change.granted }

def addProperties (acc : TokenAccumulator) (change : PropertiesChange) : TokenAccumulator :=
  { acc with properties := acc.properties.extend change.properties }

def setPaused (acc : TokenAccumulator) (paused : Bool) : TokenAccumulator := { acc with paused := some paused }

def type? (acc : TokenAccumulator) : Option String := acc.static.map (·.type)

def decimalsField (decimals : Option UInt64) : List (String × Value) :=
  match decimals with
  | some n => [("numDecimals", .nat n)]
  | none => []

def staticMutations (token : String) (acc : TokenAccumulator) : List Mutation :=
  match acc.static with
  | some s =>
    [.merge (.record ([("token", .str token), ("name", .str s.name), ("ticker", .str s.ticker),
      ("type", .str s.type)] ++ decimalsField s.decimals))]
  | none => []

def issueMutations (acc : TokenAccumulator) : List Mutation :=
  match acc.issuer with
  | some issuer =>
    let owner := acc.initialOwner.toList.map fun owner => ("currentOwner", Value.str owner)
    let time := acc.issuedAt.toList.map fun time => ("timestamp", Value.nat time)
    [.mergeIfAbsent (.record (("issuer", .str issuer) :: owner ++ time))]
  | none => []

def ownerMutations (token : String) (acc : TokenAccumulator) : List Mutation :=
  (acc.currentOwner.toList.map fun owner =>
    Mutation.merge (.record [("token", .str token), ("currentOwner", .str owner)])) ++
  if acc.ownersHistory.isEmpty then []
  else [.addToSet "ownersHistory" (acc.ownersHistory.map fun o => o.toJson.toValue)]

def roleMutations (acc : TokenAccumulator) : List Mutation :=
  acc.roles.flatMap fun (role, held) =>
    held.map fun (address, granted) => Mutation.setRole role address granted

def propertyMutations (acc : TokenAccumulator) : List Mutation :=
  if acc.properties.isEmpty then []
  else
    [.merge (.record [("properties", .obj (acc.properties.map fun (name, on) => (name, .bool on)))])]

def mutations (token : String) (acc : TokenAccumulator) : List Mutation :=
  acc.staticMutations token ++ acc.issueMutations ++ acc.ownerMutations token ++
    (if acc.changeToDynamic then [.merge (.record [("changedToDynamic", .bool true)])] else []) ++
    acc.roleMutations ++ acc.propertyMutations

def write? (token : String) (acc : TokenAccumulator) : Option WriteItem :=
  let pause := acc.paused.toList.map fun paused => Mutation.merge (.record [("paused", .bool paused)])
  match acc.mutations token, pause with
  | [], [] => none
  | [], pause => some ⟨token, .update pause⟩
  | ms, pause => some ⟨token, .upsert (ms ++ pause)⟩

end TokenAccumulator
end ChainIndex
