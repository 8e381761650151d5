import ChainIndex.Event.Outcome

/-!
Changes of stakes in delegation contracts.

Topics: the value moved, the delegator's active stake afterwards, the number of delegators, the
contract's active stake, and then the contract (delegation), the id of the fund (un-delegation), or
whether to delete the delegator and the ids of the funds withdrawn (withdrawal). A claim of rewards
has the reward, whether to delete, and perhaps the contract.
-/
namespace ChainIndex
namespace Classify

def isDelegation : EventName → Bool
  | .delegate | .unDelegate | .withdraw | .reDelegateRewards | .claimRewards => true
  | _ => false

def rewardsClaimed (address contract : String) (topics : List Bytes) (ctx : EventContext) : Outcome :=
  match topics with
  | _ :: shouldDelete :: rest =>
    if shouldDelete.isTrue then
      let contract :=
        match rest with
        | given :: _ => ctx.codec.encodeOrEmpty given
        | [] => contract
      .single (.stake { address, contract, shouldDelete := true })
    else .swallowed
  | _ => .swallowed

def stakeDetails (name : EventName) (moved : Bytes) (rest : List Bytes) (ctx : EventContext)
    (change : StakeChange) : StakeChange :=
  match name, rest with
  | .delegate, contract :: _ => { change with contract := ctx.codec.encodeOrEmpty contract }
  | .unDelegate, fund :: _ =>
    let value := (Amount.ofBytes? moved).getD .zero
    { change with
      unDelegated := some {
        id := fund.hex
        value := value.text
        valueNum := ctx.denomination.toDouble value
        timestamp := ctx.timestamp } }
  | .withdraw, shouldDelete :: funds =>
    { change with shouldDelete := shouldDelete.isTrue, withdrawnFunds := funds.map Bytes.hex }
  | _, _ => change

def stakeChanged (name : EventName) (address contract : String) (topics : List Bytes)
    (ctx : EventContext) : Outcome :=
  match topics with
  | moved :: active :: _ :: _ :: rest =>
    match Amount.ofBytes? active with
    | none => .swallowed
    | some active =>
      let change := stakeDetails name moved rest ctx {
        address
        contract
        activeStake := active.text
        activeStakeNum := ctx.denomination.toDouble active
        timestamp := ctx.timestamp }
      if change.contract.isEmpty then .swallowed else .single (.stake change)
  | _ => .swallowed

def delegation (name : EventName) (event : Event) (ctx : EventContext) : Outcome :=
  if !isDelegation name then .notApplicable
  else
    match ctx.address? event.address with
    | none => .swallowed
    | some address =>
      let contract := ctx.codec.encodeOrEmpty ctx.logAddress
      if name = .claimRewards then rewardsClaimed address contract event.topics ctx
      else stakeChanged name address contract event.topics ctx

end Classify
end ChainIndex
