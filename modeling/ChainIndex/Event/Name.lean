/-!
The closed vocabulary of event identifiers.
-/
namespace ChainIndex

inductive EventName where
  | issue
  | issueSemiFungible
  | issueNonFungible
  | registerMeta
  | registerAndSetAllRoles
  | registerDynamic
  | registerAndSetAllRolesDynamic
  | changeSftToMeta
  | changeToDynamic
  | transferOwnership
  | nftCreate
  | nftBurn
  | wipe
  | nftAddUri
  | nftUpdateAttributes
  | freeze
  | unFreeze
  | pause
  | unPause
  | metadataRecreate
  | metadataUpdate
  | setNewUris
  | modifyCreator
  | modifyRoyalties
  | setRole
  | unSetRole
  | nftCreateRoleTransfer
  | upgradeProperties
  | delegate
  | unDelegate
  | withdraw
  | reDelegateRewards
  | claimRewards
  | deploy
  | upgrade
  | changeOwner
  | completedTx
  | signalError
  | internalVmErrors
  | writeLog
deriving DecidableEq, Repr

namespace EventName

def text : EventName → String
  | issue => "issue"
  | issueSemiFungible => "issueSemiFungible"
  | issueNonFungible => "issueNonFungible"
  | registerMeta => "registerMetaDCDT"
  | registerAndSetAllRoles => "registerAndSetAllRoles"
  | registerDynamic => "registerDynamic"
  | registerAndSetAllRolesDynamic => "registerAndSetAllRolesDynamic"
  | changeSftToMeta => "changeSFTToMetaDCDT"
  | changeToDynamic => "changeToDynamic"
  | transferOwnership => "transferOwnership"
  | nftCreate => "DCDTNFTCreate"
  | nftBurn => "DCDTNFTBurn"
  | wipe => "DCDTWipe"
  | nftAddUri => "DCDTNFTAddURI"
  | nftUpdateAttributes => "DCDTNFTUpdateAttributes"
  | freeze => "DCDTFreeze"
  | unFreeze => "DCDTUnFreeze"
  | pause => "DCDTPause"
  | unPause => "DCDTUnPause"
  | metadataRecreate => "DCDTMetaDataRecreate"
  | metadataUpdate => "DCDTMetaDataUpdate"
  | setNewUris => "DCDTSetNewURIs"
  | modifyCreator => "DCDTModifyCreator"
  | modifyRoyalties => "DCDTModifyRoyalties"
  | setRole => "DCDTSetRole"
  | unSetRole => "DCDTUnSetRole"
  | nftCreateRoleTransfer => "DCDTNFTCreateRoleTransfer"
  | upgradeProperties => "upgradeProperties"
  | delegate => "delegate"
  | unDelegate => "unDelegate"
  | withdraw => "withdraw"
  | reDelegateRewards => "reDelegateRewards"
  | claimRewards => "claimRewards"
  | deploy => "SCDeploy"
  | upgrade => "SCUpgrade"
  | changeOwner => "ChangeOwnerAddress"
  | completedTx => "completedTxEvent"
  | signalError => "signalError"
  | internalVmErrors => "internalVMErrors"
  | writeLog => "writeLog"

def all : List EventName :=
  [issue, issueSemiFungible, issueNonFungible, registerMeta, registerAndSetAllRoles, registerDynamic,
    registerAndSetAllRolesDynamic, changeSftToMeta, changeToDynamic, transferOwnership, nftCreate,
    nftBurn, wipe, nftAddUri, nftUpdateAttributes, freeze, unFreeze, pause, unPause,
    metadataRecreate, metadataUpdate, setNewUris, modifyCreator, modifyRoyalties, setRole, unSetRole,
    nftCreateRoleTransfer, upgradeProperties, delegate, unDelegate, withdraw, reDelegateRewards,
    claimRewards, deploy, upgrade, changeOwner, completedTx, signalError, internalVmErrors, writeLog]

def ofText? (identifier : String) : Option EventName := all.find? (·.text == identifier)

end EventName
end ChainIndex
