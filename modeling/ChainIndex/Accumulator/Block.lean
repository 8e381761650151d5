import ChainIndex.Accumulator.Nft
import ChainIndex.Accumulator.Delegator
import ChainIndex.Accumulator.Contract

/-!
All that the logs of one block say, by the thing it is about. Each thing touched has one write.
-/
namespace ChainIndex

structure BlockAccumulators where
  /-- By token or collection. -/
  tokens : Dict TokenAccumulator := []
  /-- By identifier of the non-fungible token. -/
  nfts : Dict NftAccumulator := []
  /-- By document id. -/
  delegators : Dict DelegatorAccumulator := []
  /-- By contract address. -/
  contracts : Dict ContractAccumulator := []
  /-- By transaction hash. -/
  statuses : Dict StatusInfo := []

namespace BlockAccumulators

def onToken (acc : BlockAccumulators) (token : String) (f : TokenAccumulator → TokenAccumulator) :
    BlockAccumulators :=
  { acc with tokens := acc.tokens.alter token fun t => f (t.getD {}) }

def onNft (acc : BlockAccumulators) (identifier : String) (f : NftAccumulator → NftAccumulator) :
    BlockAccumulators :=
  { acc with nfts := acc.nfts.alter identifier fun n => f (n.getD {}) }

def onContract (acc : BlockAccumulators) (contract : String) (ms : List Mutation) : BlockAccumulators :=
  { acc with contracts := acc.contracts.alter contract fun c => (c.getD {}).add ms }

/-- A pause goes to the collection, any other change to the token. -/
def addUpdate (acc : BlockAccumulators) (u : NftUpdate) : BlockAccumulators :=
  match u.change with
  | .pause => acc.onToken u.identifier (·.setPaused true)
  | .unPause => acc.onToken u.identifier (·.setPaused false)
  | _ => acc.onNft u.identifier fun n => { n with updates := n.updates ++ [u] }

def add (acc : BlockAccumulators) (delta : Delta) : BlockAccumulators :=
  match delta with
  | .token info => acc.onToken info.token (·.addToken info)
  | .nftCreated info => acc.onNft info.identifier fun n => { n with created := some info }
  | .nftUpdate update => acc.addUpdate update
  | .supply change => acc.onNft change.identifier fun n => { n with supply := n.supply ++ [change] }
  | .role change => acc.onToken change.token (·.addRole change)
  | .properties change => acc.onToken change.token (·.addProperties change)
  | .stake change =>
    { acc with
      delegators := acc.delegators.alter (delegatorId change.address change.contract)
        fun d => (d.getD {}).add change }
  | .deployed deployment => acc.onContract deployment.contract deployment.mutations
  | .upgraded upgrade => acc.onContract upgrade.contract upgrade.mutations
  | .ownerChanged change => acc.onContract change.contract change.mutations
  | .status hash signal =>
    { acc with statuses := acc.statuses.alter hash fun known => (known.getD {}).latch signal }

def addAll (acc : BlockAccumulators) (deltas : List Delta) : BlockAccumulators := deltas.foldl add acc

def delegatorWrites (acc : BlockAccumulators) : List WriteItem :=
  acc.delegators.map fun (id, d) => ⟨id, d.action⟩

def contractWrites (acc : BlockAccumulators) : List WriteItem :=
  (acc.contracts.filter fun (_, c) => !c.mutations.isEmpty).map
    fun (contract, c) => ⟨contract, .upsert c.mutations⟩

end BlockAccumulators
end ChainIndex
