import ChainIndex.Token.Attributes
import ChainIndex.Token.Metadata
import ChainIndex.Address

/-!
Token metadata in documents. Empty fields are left out, so the form is also a patch of single fields.
-/
namespace ChainIndex

structure NftMetadata where
  name : String := ""
  creator : String := ""
  royalties : UInt32 := 0
  hash : String := ""
  uris : List String := []
  attributes : String := ""
  tags : List String := []
  metadata : Option String := none
deriving DecidableEq, Repr, Inhabited

def urisToText (uris : List Bytes) : List String :=
  (uris.map Bytes.toField).filter (!·.isEmpty)

namespace NftMetadata

def ofRaw (codec : AddressFormat) (raw : TokenMetadata) : NftMetadata where
  name := raw.name.toField
  creator := codec.encodeOrEmpty raw.creator
  royalties := raw.royalties
  hash := raw.hash.hex
  uris := urisToText raw.uris
  attributes := raw.attributes.hex
  tags := Attributes.tags raw.attributes
  metadata := Attributes.metadata? raw.attributes

def fieldNames : List String :=
  ["name", "creator", "royalties", "hash", "uris", "attributes", "tags", "metadata"]

def toJson (m : NftMetadata) : Json :=
  .obj <|
    Json.textField "name" m.name ++
    Json.textField "creator" m.creator ++
    (if m.royalties = 0 then [] else [("royalties", .nat m.royalties.toNat)]) ++
    Json.textField "hash" m.hash ++
    Json.textsField "uris" m.uris ++
    Json.textField "attributes" m.attributes ++
    Json.textsField "tags" m.tags ++
    (match m.metadata with
    | some text => [("metadata", .str text)]
    | none => [])

def ofJson? (j : Json) : Option NftMetadata := do
  let [name, creator, royalties, hash, uris, attributes, tags, metadata] ← j.record? fieldNames | none
  return {
    name := ← name.orElse? "" Json.str?
    creator := ← creator.orElse? "" Json.str?
    royalties := ← royalties.orElse? 0 Json.uint32?
    hash := ← hash.orElse? "" Json.str?
    uris := ← uris.orElse? [] Json.strings?
    attributes := ← attributes.orElse? "" Json.str?
    tags := ← tags.orElse? [] Json.strings?
    metadata := ← metadata.orElse? none (Json.nullable? Json.str?) }

end NftMetadata
end ChainIndex
