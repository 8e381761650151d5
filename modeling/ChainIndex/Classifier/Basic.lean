import ChainIndex.Classifier.Issue
import ChainIndex.Classifier.NftProperties
import ChainIndex.Classifier.Roles
import ChainIndex.Classifier.Contracts
import ChainIndex.Classifier.Delegation
import ChainIndex.Classifier.Informative

/-!
The classifiers. Each owns a part of the event vocabulary and turns an event of that part into
deltas; an identifier outside the vocabulary is nobody's.
-/
namespace ChainIndex

inductive Classifier where
  | issue
  | nfts
  | nftProperties
  | roles
  | contracts
  | delegation
  | informative
deriving DecidableEq, Repr

namespace Classifier

def name : Classifier → String
  | issue => "issue"
  | nfts => "nfts"
  | nftProperties => "nft-properties"
  | roles => "roles"
  | contracts => "sc-deploys"
  | delegation => "delegators"
  | informative => "informative"

def standard : List Classifier := [issue, nfts, nftProperties, roles, contracts, delegation, informative]

def ofName? (text : String) : Option Classifier := standard.find? (·.name == text)

def classifyNamed : Classifier → EventName → Event → EventContext → Outcome
  | issue => Classify.issue
  | nfts => Classify.nfts
  | nftProperties => Classify.nftProperties
  | roles => Classify.roles
  | contracts => Classify.contracts
  | delegation => Classify.delegation
  | informative => Classify.informative

def classify (c : Classifier) (event : Event) (ctx : EventContext) : Outcome :=
  match EventName.ofText? event.identifier with
  | some name => c.classifyNamed name event ctx
  | none => .notApplicable

end Classifier
end ChainIndex
