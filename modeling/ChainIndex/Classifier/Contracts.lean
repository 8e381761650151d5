import ChainIndex.Event.Outcome

/-!
Deployments and upgrades of contracts, and changes of their owners.

Topics of a deployment or upgrade: contract, caller, and perhaps the code hash. A change of owner is
an event of the contract itself, with the new owner as its topic.
-/
namespace ChainIndex
namespace Classify

def ownerChanged (event : Event) (ctx : EventContext) : Outcome :=
  match ctx.address? event.address, (event.topic? 0).bind ctx.address? with
  | some contract, some owner => .single (.ownerChanged ⟨contract, owner, ctx.timestamp, ctx.txHash⟩)
  | _, _ => .swallowed

def codeEvent? (event : Event) (ctx : EventContext) : Option (String × String × String) :=
  match event.topics with
  | contract :: caller :: rest => do
    return (← ctx.address? contract, ← ctx.address? caller, (rest.headD []).hex)
  | _ => none

def contracts (name : EventName) (event : Event) (ctx : EventContext) : Outcome :=
  match name with
  | .changeOwner => ownerChanged event ctx
  | .deploy =>
    match codeEvent? event ctx with
    | some (contract, creator, codeHash) =>
      .single (.deployed ⟨contract, creator, codeHash, ctx.txHash, ctx.timestamp⟩)
    | none => .swallowed
  | .upgrade =>
    match codeEvent? event ctx with
    | some (contract, upgrader, codeHash) =>
      .single (.upgraded ⟨contract, upgrader, codeHash, ctx.txHash, ctx.timestamp⟩)
    | none => .swallowed
  | _ => .notApplicable

end Classify
end ChainIndex
