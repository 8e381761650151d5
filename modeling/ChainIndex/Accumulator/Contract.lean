import ChainIndex.Event.Delta
import ChainIndex.Write.Action

/-!
The changes of one deployed contract's document, in order.
-/
namespace ChainIndex

def Deployment.mutations (d : Deployment) : List Mutation :=
  let code := if d.codeHash.isEmpty then [] else [("codeHash", Value.str d.codeHash)]
  [.merge (.record ([("deployer", .str d.creator), ("deployTxHash", .str d.txHash),
      ("timestamp", .nat d.timestamp)] ++ code)),
    .mergeIfAbsent (.record [("currentOwner", .str d.creator)])]

def Upgrade.mutations (u : Upgrade) : List Mutation :=
  (if u.codeHash.isEmpty then [] else [.merge (.record [("codeHash", .str u.codeHash)])]) ++
  [.addToSet "upgrades" [.record [("upgrader", .str u.upgrader), ("codeHash", .str u.codeHash),
    ("txHash", .str u.txHash), ("timestamp", .nat u.timestamp)]]]

def OwnerChange.mutations (c : OwnerChange) : List Mutation :=
  [.merge (.record [("currentOwner", .str c.owner.address)]),
    .addToSet "ownersHistory" [.record [("address", .str c.owner.address),
      ("timestamp", .nat c.owner.timestamp), ("txHash", .str c.owner.txHash)]]]

structure ContractAccumulator where
  mutations : List Mutation := []

namespace ContractAccumulator

def add (acc : ContractAccumulator) (ms : List Mutation) : ContractAccumulator := ⟨acc.mutations ++ ms⟩

end ContractAccumulator
end ChainIndex
