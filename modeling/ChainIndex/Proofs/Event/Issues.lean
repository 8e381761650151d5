import ChainIndex.Proofs.Event.Sources

/-!
What the issue classifier accepts: issues, type changes and transfers, each with the owner that it names.
-/
namespace ChainIndex

namespace Delta

def tokenInfo? : Delta → Option TokenInfo
  | token info => some info
  | _ => none

theorem tokenInfo?_of_source {delta : Delta} (h : delta.source ≠ .issue) : delta.tokenInfo? = none := by
  cases delta with
  | token info => exact absurd rfl h
  | _ => rfl

end Delta

namespace Outcome

def tokenInfos (o : Outcome) : List TokenInfo := (o.deltas?.getD []).filterMap Delta.tokenInfo?

end Outcome

namespace Classify

variable {name : EventName} {event : Event} {ctx : EventContext} {info : TokenInfo}

/-- An accepted event names the owner: of a transfer its fifth topic is the address, of any other event it is the
caller. The entry for the history has that owner, the time of the block and the hash of the log. -/
theorem issue_accepted (h : info ∈ (issue name event ctx).tokenInfos) :
    info.ownerEntry = ⟨info.currentOwner, ctx.timestamp, ctx.txHash⟩ ∧
      (if info.kind = .transferOwnership then (event.topic? 4).bind ctx.address? else ctx.address? event.address) =
        some info.currentOwner := by
  unfold issue at h
  split at h
  · cases h
  · next kind token title ticker type rest _ htopics =>
    split at h
    · cases h
    · cases h
    · next caller hcaller =>
      dsimp only at h
      split at h
      · next newOwner more =>
        split at h
        · next owner howner =>
          obtain rfl := List.mem_singleton.1 h
          refine ⟨rfl, ?_⟩
          rw [if_pos rfl, Event.topic?, htopics]
          exact howner
        · cases h
      · cases h
      · next hkind hnone =>
        obtain rfl := List.mem_singleton.1 h
        refine ⟨rfl, ?_⟩
        rw [if_neg, hcaller]
        intro htransfer
        cases rest with
        | nil => exact hnone htransfer rfl
        | cons newOwner more => exact hkind newOwner more htransfer rfl
  · cases h

end Classify

namespace Classifier

variable {event : Event} {ctx : EventContext}

/-- What an outcome says of a token comes from an event of the issue family. -/
theorem exists_issue_of_mem {info : TokenInfo} (h : info ∈ (issue.classify event ctx).tokenInfos) :
    ∃ name, EventName.ofText? event.identifier = some name ∧ info ∈ (Classify.issue name event ctx).tokenInfos := by
  unfold classify at h
  split at h
  · next name hname => exact ⟨name, hname, h⟩
  · cases h

end Classifier

namespace Registry

variable {r : Registry}

def tokenInfos (r : Registry) (pool : Pool) (timestamp : UInt64) : List TokenInfo :=
  pool.logs.flatMap fun log =>
    log.events.flatMap fun event => (Classifier.issue.classify event (r.context pool timestamp log)).tokenInfos

theorem filterMap_deltas (hi : .issue ∈ r.classifiers) (pool : Pool) (timestamp : UInt64) :
    (r.deltas pool timestamp).filterMap Delta.tokenInfo? = r.tokenInfos pool timestamp :=
  filterMap_deltas_of_source hi (fun _ => Delta.tokenInfo?_of_source) pool timestamp

end Registry
end ChainIndex
