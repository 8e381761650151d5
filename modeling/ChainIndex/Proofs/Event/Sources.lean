import ChainIndex.Proofs.Event.Signals

/-!
Which classifier an event is for. No two classifiers take events of one name, so whatever their order, what the deltas
of a block say of one kind of thing is what the classifier of that kind makes of the events, in their order.
-/
namespace ChainIndex

def EventName.classifier : EventName → Classifier
  | issue | issueSemiFungible | issueNonFungible | registerMeta | registerAndSetAllRoles | registerDynamic
  | registerAndSetAllRolesDynamic | changeSftToMeta | changeToDynamic | transferOwnership => .issue
  | nftCreate | nftBurn | wipe => .nfts
  | nftAddUri | nftUpdateAttributes | freeze | unFreeze | pause | unPause | metadataRecreate | metadataUpdate
  | setNewUris | modifyCreator | modifyRoyalties => .nftProperties
  | setRole | unSetRole | nftCreateRoleTransfer | upgradeProperties => .roles
  | delegate | unDelegate | withdraw | reDelegateRewards | claimRewards => .delegation
  | deploy | upgrade | changeOwner => .contracts
  | completedTx | signalError | internalVmErrors | writeLog => .informative

theorem EventName.text_of_ofText? {text : String} {name : EventName} (h : ofText? text = some name) :
    name.text = text := by
  have hfound := List.find?_some h
  exact beq_iff_eq.1 hfound

variable {α : Type} {c d : Classifier} {event : Event} {ctx : EventContext} {f : Delta → Option α}

def Outcome.accepted (f : Delta → Option α) (o : Outcome) : List α := (o.deltas?.getD []).filterMap f

/-- A classifier says nothing to who sees only deltas of another. -/
theorem Outcome.From.accepted {o : Outcome} (h : o.From d) (hd : d ≠ c)
    (hf : ∀ delta, delta.source ≠ c → f delta = none) : o.accepted f = [] := by
  cases o with
  | notApplicable => rfl
  | processed deltas => exact List.filterMap_eq_nil_iff.2 fun delta hm => hf delta ((h delta hm).2 ▸ hd)

namespace Classifier

theorem classifyNamed_of_ne {name : EventName} (h : c ≠ name.classifier) :
    c.classifyNamed name event ctx = .notApplicable := by
  cases name <;> cases c <;> first | rfl | exact absurd rfl h

/-- An event that is taken is for no other classifier. -/
theorem notApplicable_of_taken {deltas : List Delta} (hd : d ≠ c)
    (h : (c.classify event ctx).deltas? = some deltas) : d.classify event ctx = .notApplicable := by
  unfold classify at h ⊢
  split at h
  · next name _ =>
    by_cases hc : c = name.classifier
    · exact classifyNamed_of_ne (hc ▸ hd)
    · rw [classifyNamed_of_ne hc] at h
      cases h
  · rfl

end Classifier

namespace Registry

variable {r : Registry}

/-- What is made of an event says as much as the classifier that `f` sees. -/
theorem filterMap_dispatch (hc : c ∈ r.classifiers) (hf : ∀ delta, delta.source ≠ c → f delta = none)
    (event : Event) (ctx : EventContext) :
    ((r.dispatch event ctx).getD []).filterMap f = (c.classify event ctx).accepted f := by
  cases hd : r.dispatch event ctx with
  | none =>
    have hnone := List.findSome?_eq_none_iff.1 hd c hc
    rw [Outcome.accepted, hnone]
  | some deltas =>
    obtain ⟨d, -, htaken⟩ := List.exists_of_findSome?_eq_some hd
    by_cases he : d = c
    · rw [← he, Outcome.accepted, htaken]
    · have hsilent := (d.from_classify event ctx).accepted he hf
      rw [Outcome.accepted, htaken] at hsilent
      rw [Classifier.notApplicable_of_taken (Ne.symm he) htaken]
      exact hsilent

/-- What a classifier makes of the events of the pool, in order, of the deltas that `f` sees. -/
def accepted (r : Registry) (c : Classifier) (f : Delta → Option α) (pool : Pool) (timestamp : UInt64) : List α :=
  pool.logs.flatMap fun log =>
    log.events.flatMap fun event => (c.classify event (r.context pool timestamp log)).accepted f

/-- What one classifier makes of a pool can be told without the others. -/
theorem filterMap_deltas_of_source (hc : c ∈ r.classifiers) (hf : ∀ delta, delta.source ≠ c → f delta = none)
    (pool : Pool) (timestamp : UInt64) :
    (r.deltas pool timestamp).filterMap f = r.accepted c f pool timestamp := by
  simp only [deltas, answers, accepted, List.flatMap_assoc, List.flatMap_map, List.filterMap_flatMap,
    filterMap_dispatch hc hf]

/-- What one classifier makes of a pool comes from the events of its logs, each in its own context. -/
theorem mem_accepted {pool : Pool} {timestamp : UInt64} {a : α} :
    a ∈ r.accepted c f pool timestamp ↔
      ∃ log ∈ pool.logs, ∃ event ∈ log.events,
        a ∈ (c.classify event (r.context pool timestamp log)).accepted f := by
  simp only [accepted, List.mem_flatMap]

end Registry
end ChainIndex
