import ChainIndex.Event.Outcome
import ChainIndex.Token.Identifier

/-!
Creation of non-fungible tokens and removal of their supply.

Topics: collection, nonce, value, and then the serialized token of a creation.
-/
namespace ChainIndex
namespace Classify

/-- The nonce of a non-fungible token; zero stands for a fungible one. -/
def nftNonce? (topic : Bytes) : Option UInt64 :=
  match topic.toNonce? with
  | some 0 => none
  | other => other

inductive NftEventKind where
  | create
  | remove (kind : SupplyKind)

def nftEventKind? : EventName → Option NftEventKind
  | .nftCreate => some .create
  | .nftBurn => some (.remove .burn)
  | .wipe => some (.remove .wipe)
  | _ => none

def nftCreated (token : Bytes) (nonce : UInt64) (rest : List Bytes) (ctx : EventContext) : Outcome :=
  match rest with
  | [] => .swallowed
  | serialized :: _ =>
    match ctx.metadata.decode? serialized with
    | none => .swallowed
    | some digital =>
      let token := Utf8.decodeLossy token
      .single (.nftCreated {
        identifier := nftIdentifier token nonce
        token
        nonce
        timestamp := ctx.timestamp
        data := digital.metadata.map (NftMetadata.ofRaw ctx.codec) })

def nftRemoved (kind : SupplyKind) (token : Bytes) (nonce : UInt64) (value : Bytes)
    (ctx : EventContext) : Outcome :=
  match Amount.ofBytes? value with
  | none => .swallowed
  | some value =>
    let token := Utf8.decodeLossy token
    .single (.supply {
      kind
      identifier := nftIdentifier token nonce
      token
      nonce
      value
      timestamp := ctx.timestamp })

def nfts (name : EventName) (event : Event) (ctx : EventContext) : Outcome :=
  match nftEventKind? name, event.topics with
  | none, _ => .notApplicable
  | some kind, token :: nonce :: value :: rest =>
    match nftNonce? nonce, ctx.address? event.address with
    | none, _ => .notApplicable
    | some _, none => .swallowed
    | some nonce, some _ =>
      match kind with
      | .create => nftCreated token nonce rest ctx
      | .remove kind => nftRemoved kind token nonce value ctx
  | some _, _ => .swallowed

end Classify
end ChainIndex
