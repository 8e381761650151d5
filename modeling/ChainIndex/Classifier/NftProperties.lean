import ChainIndex.Classifier.Nft

/-!
Changes of existing non-fungible tokens, and pauses of collections.

Topics: collection, nonce, value, and then the new data. The event of a pause has the collection
alone, and a change of creator needs no data.
-/
namespace ChainIndex
namespace Classify

def isNftProperty : EventName → Bool
  | .nftAddUri | .nftUpdateAttributes | .freeze | .unFreeze | .pause | .unPause | .metadataRecreate
  | .metadataUpdate | .setNewUris | .modifyCreator | .modifyRoyalties => true
  | _ => false

def pauseOf? : EventName → Option NftChange
  | .pause => some .pause
  | .unPause => some .unPause
  | _ => none

def metadataOf? (ctx : EventContext) (serialized : Bytes) : Option NftMetadata :=
  (ctx.metadata.decode? serialized).map fun token =>
    match token.metadata with
    | some raw => NftMetadata.ofRaw ctx.codec raw
    | none => {}

def royaltiesOf (topic : Bytes) : UInt32 := (min topic.toUInt64Saturating.toNat (UInt32.size - 1)).toUInt32

def nftChange? (name : EventName) (caller : String) (data : List Bytes) (ctx : EventContext) :
    Option NftChange :=
  match name, data with
  | .modifyCreator, _ => some (.modifyCreator caller)
  | .nftUpdateAttributes, attributes :: _ => some (.setAttributes attributes)
  | .nftAddUri, uris => some (.addUris (urisToText uris))
  | .setNewUris, uris => some (.setUris (urisToText uris))
  | .freeze, _ => some .freeze
  | .unFreeze, _ => some .unFreeze
  | .metadataRecreate, serialized :: _ => (metadataOf? ctx serialized).map .recreateMetadata
  | .metadataUpdate, serialized :: _ => (metadataOf? ctx serialized).map .updateMetadata
  | .modifyRoyalties, royalties :: _ => some (.modifyRoyalties (royaltiesOf royalties))
  | _, _ => none

def hasData (name : EventName) (data : List Bytes) : Bool := name == .modifyCreator || !data.isEmpty

def nftProperties (name : EventName) (event : Event) (ctx : EventContext) : Outcome :=
  if !isNftProperty name then .notApplicable
  else
    match ctx.address? event.address, event.topics with
    | none, _ => .swallowed
    | some caller, [token] =>
      match pauseOf? name with
      | some change => .single (.nftUpdate ⟨Utf8.decodeLossy token, caller, change⟩)
      | none => .swallowed
    | some caller, token :: nonce :: _ :: data =>
      if !hasData name data then .swallowed
      else
        match nftNonce? nonce with
        | none => .notApplicable
        | some nonce =>
          match nftChange? name caller data ctx with
          | some change =>
            .single (.nftUpdate ⟨nftIdentifier (Utf8.decodeLossy token) nonce, caller, change⟩)
          | none => .swallowed
    | some _, _ => .swallowed

end Classify
end ChainIndex
