import ChainIndex.Json.Slots
import ChainIndex.Json.Reader
import ChainIndex.Json.Printer

/-!
Metadata that the chain attaches to a non-fungible token, and the token entry that carries it.
Both travel as JSON, with octets as lists of numbers.
-/
namespace ChainIndex

structure TokenMetadata where
  nonce : UInt64 := 0
  name : Bytes := []
  creator : Bytes := []
  royalties : UInt32 := 0
  hash : Bytes := []
  uris : List Bytes := []
  attributes : Bytes := []
deriving DecidableEq, Repr, Inhabited

namespace TokenMetadata

def fieldNames : List String :=
  ["nonce", "name", "creator", "royalties", "hash", "uris", "attributes"]

def toJson (m : TokenMetadata) : Json :=
  .obj [("nonce", .nat m.nonce.toNat), ("name", .octets m.name), ("creator", .octets m.creator),
    ("royalties", .nat m.royalties.toNat), ("hash", .octets m.hash),
    ("uris", .arr (m.uris.map .octets)), ("attributes", .octets m.attributes)]

def ofJson? (j : Json) : Option TokenMetadata := do
  let [nonce, name, creator, royalties, hash, uris, attributes] ← j.record? fieldNames | none
  return {
    nonce := ← nonce.required? Json.uint64?
    name := ← name.required? Json.octets?
    creator := ← creator.required? Json.octets?
    royalties := ← royalties.required? Json.uint32?
    hash := ← hash.required? Json.octets?
    uris := ← uris.required? (Json.list? Json.octets?)
    attributes := ← attributes.required? Json.octets? }

end TokenMetadata

structure DigitalToken where
  kind : UInt32 := 0
  value : String := ""
  properties : Bytes := []
  metadata : Option TokenMetadata := none
deriving DecidableEq, Repr, Inhabited

namespace DigitalToken

def fieldNames : List String := ["type", "value", "properties", "token_meta_data"]

def toJson (t : DigitalToken) : Json :=
  .obj [("type", .nat t.kind.toNat), ("value", .str t.value), ("properties", .octets t.properties),
    ("token_meta_data", .option TokenMetadata.toJson t.metadata)]

def ofJson? (j : Json) : Option DigitalToken := do
  let [kind, value, properties, metadata] ← j.record? fieldNames | none
  return {
    kind := ← kind.required? Json.uint32?
    value := ← value.required? Json.str?
    properties := ← properties.required? Json.octets?
    metadata := ← metadata.optional? TokenMetadata.ofJson? }

def encode (t : DigitalToken) : Bytes := Utf8.encode t.toJson.text

def decode? (octets : Bytes) : Option DigitalToken := (Json.parse? octets).bind ofJson?

end DigitalToken

/-- How tokens are read from the octets of an event. Nothing here writes them. -/
structure MetadataCodec where
  decode? : Bytes → Option DigitalToken

namespace MetadataCodec

def json : MetadataCodec := ⟨DigitalToken.decode?⟩

instance : Inhabited MetadataCodec := ⟨json⟩

end MetadataCodec
end ChainIndex
