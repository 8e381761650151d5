import ChainIndex.Event.Outcome

/-!
Grants of roles, and upgrades of token properties.

Topics of roles: token, nonce, value, and then role names; the account is the event's own. Topics of
properties: token, nonce, and then pairs of name and truth value.
-/
namespace ChainIndex
namespace Classify

def roleStart : Bytes := Utf8.encode "DCDTRole"

def createRole : String := "DCDTRoleNFTCreate"

def propertyPairs : List Bytes → List (String × Bool)
  | name :: value :: rest => (Utf8.decodeLossy name, value.isTrue) :: propertyPairs rest
  | _ => []

def propertiesOf (token : String) (topics : List Bytes) : Outcome :=
  match Dict.ofList (propertyPairs topics) with
  | [] => .swallowed
  | properties => .single (.properties ⟨token, properties⟩)

def isRoleEvent : EventName → Bool
  | .setRole | .unSetRole | .nftCreateRoleTransfer | .upgradeProperties => true
  | _ => false

def roles (name : EventName) (event : Event) (ctx : EventContext) : Outcome :=
  if !isRoleEvent name then .notApplicable
  else
    match event.topics with
    | token :: _ :: value :: fourth :: rest =>
      let token := Utf8.decodeLossy token
      if name = .upgradeProperties then propertiesOf token (value :: fourth :: rest)
      else
        match ctx.address? event.address with
        | none => .swallowed
        | some address =>
          if name = .nftCreateRoleTransfer then
            .single (.role ⟨createRole, token, address, fourth.isTrue⟩)
          else if (fourth :: rest).all roleStart.isPrefixOf then
            .processed <| (fourth :: rest).map fun role =>
              .role ⟨Utf8.decodeLossy role, token, address, name = .setRole⟩
          else .swallowed
    | _ => .swallowed

end Classify
end ChainIndex
