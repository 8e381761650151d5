import ChainIndex.Event.Outcome

/-!
Issuance of tokens, changes of their type, and transfers of their ownership.

Topics: token, name, ticker, type, and then the number of decimals or, for a transfer, the new owner.
-/
namespace ChainIndex
namespace Classify

def tokenEventKind? : EventName → Option TokenEventKind
  | .issue | .issueSemiFungible | .issueNonFungible | .registerMeta | .registerAndSetAllRoles
  | .registerDynamic | .registerAndSetAllRolesDynamic => some .issue
  | .changeSftToMeta | .changeToDynamic => some .change
  | .transferOwnership => some .transferOwnership
  | _ => none

/-- The decimals of a token that is issued or changed: only a fifth topic that is the last gives them. -/
def issueDecimals? (kind : TokenEventKind) (topics : List Bytes) : Option UInt64 :=
  match kind, topics with
  | .transferOwnership, _ => none
  | _, [_, _, _, _, decimals] => some decimals.toUInt64Saturating
  | _, _ => none

def issue (name : EventName) (event : Event) (ctx : EventContext) : Outcome :=
  match tokenEventKind? name, event.topics with
  | none, _ => .notApplicable
  | some kind, token :: title :: ticker :: type :: rest =>
    match token, ctx.address? event.address with
    | [], _ => .swallowed
    | _, none => .swallowed
    | _, some caller =>
      let info (owner : String) : Delta := .token {
        kind
        token := Utf8.decodeLossy token
        name := Utf8.decodeLossy title
        ticker := Utf8.decodeLossy ticker
        type := Utf8.decodeLossy type
        decimals := issueDecimals? kind event.topics
        issuer := caller
        currentOwner := owner
        ownerEntry := ⟨owner, ctx.timestamp, ctx.txHash⟩
        changeToDynamic := name == .changeToDynamic
        timestamp := ctx.timestamp }
      match kind, rest with
      | .transferOwnership, newOwner :: _ =>
        match ctx.address? newOwner with
        | some owner => .single (info owner)
        | none => .swallowed
      | .transferOwnership, [] => .swallowed
      | _, _ => .single (info caller)
  | some _, _ => .swallowed

end Classify
end ChainIndex
