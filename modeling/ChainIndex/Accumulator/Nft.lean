import ChainIndex.Accumulator.Token

/-!
What a block says about one non-fungible token, and the write of its document. The document carries
fields of its collection, and a burn removes it when the collection is of a non-fungible type.
-/
namespace ChainIndex

structure NftAccumulator where
  created : Option NftInfo := none
  updates : List NftUpdate := []
  supply : List SupplyChange := []
deriving DecidableEq, Repr, Inhabited

def nonFungibleTypes : List String := ["NonFungibleDCDT", "NonFungibleDCDTv2", "DynamicNonFungibleDCDT"]

structure CollectionFields where
  type : String := ""
  ticker : String := ""
  decimals : Option UInt64 := none
deriving DecidableEq, Repr, Inhabited

namespace CollectionFields

def isNonFungible (c : CollectionFields) : Bool := nonFungibleTypes.contains c.type

def ofAccumulator? (acc : TokenAccumulator) : Option CollectionFields :=
  acc.static.map fun s => ⟨s.type, s.ticker, s.decimals⟩

def ofDocument? (doc : Value) : Option CollectionFields := do
  let type ← (← doc.get? "type").text?
  return {
    type
    ticker := ((doc.get? "ticker").bind Value.text?).getD ""
    decimals := (doc.get? "numDecimals").bind Value.nat? }

def patch (c : CollectionFields) : Value :=
  .record ([("type", .str c.type), ("ticker", .str c.ticker)] ++ TokenAccumulator.decimalsField c.decimals)

end CollectionFields

namespace NftChange

def patchData (name : String) (value : Value) : Mutation :=
  .merge (.record [("data", .record [(name, value)])])

def mutations : NftChange → List Mutation
  | setAttributes attributes =>
    [.set "data.attributes" (.str attributes.hex), .set "data.tags" (.strings (Attributes.tags attributes)),
      match Attributes.metadata? attributes with
      | some text => .set "data.metadata" (.str text)
      | none => .unset "data.metadata"]
  | addUris uris => [.addToSet "data.uris" (uris.map .str)]
  | setUris uris => [.set "data.uris" (.strings uris)]
  | freeze => [.merge (.record [("frozen", .bool true)])]
  | unFreeze => [.merge (.record [("frozen", .bool false)])]
  | pause => []
  | unPause => []
  | recreateMetadata data => [.set "data" data.toJson.toValue]
  | updateMetadata data => [.merge (.record [("data", data.toJson.toValue)])]
  | modifyCreator creator => [patchData "creator" (.str creator)]
  | modifyRoyalties royalties => [patchData "royalties" (.nat royalties.toUInt64)]

end NftChange

namespace NftAccumulator

/-- The collection of the token, as its creation or else its first change of supply names it. -/
def collection? (acc : NftAccumulator) : Option String :=
  (acc.created.map (·.token)) <|> (acc.supply.head?.map (·.token))

def write? (identifier : String) (acc : NftAccumulator) (collection : Option CollectionFields) :
    Option WriteItem :=
  if !acc.supply.isEmpty && collection.any (·.isNonFungible) then some ⟨identifier, .delete⟩
  else
    let updates := acc.updates.flatMap fun u => u.change.mutations
    match acc.created with
    | some info =>
      let data := info.data.toList.map fun data => ("data", data.toJson.toValue)
      let fields := [("identifier", Value.str info.identifier), ("token", .str info.token),
        ("nonce", .nat info.nonce), ("timestamp", .nat info.timestamp)] ++ data
      let patch := collection.toList.map fun c => Mutation.merge c.patch
      some ⟨identifier, .upsert (.mergeIfAbsent (.record fields) :: patch ++ updates)⟩
    | none => if updates.isEmpty then none else some ⟨identifier, .update updates⟩

end NftAccumulator
end ChainIndex
