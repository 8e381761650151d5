import ChainIndex.Event.Dispatch
import ChainIndex.Proofs.Latch

/-!
What classifiers say, whichever are at work. Every kind of delta comes from one of them. Only completions and
failures are signalled, so what a block says of a transaction is a pair of flags; and a created token is
named by its collection and nonce.
-/
namespace ChainIndex

namespace Delta

/-- The label of a signal says no more than its flags, and the identifier of a created token no more than
its collection and nonce. -/
def Plain : Delta → Prop
  | .status _ signal => ∃ c f, signal = .ofFlags c f
  | .nftCreated info => info.identifier = nftIdentifier info.token info.nonce
  | _ => True

def source : Delta → Classifier
  | .token _ => .issue
  | .nftCreated _ | .supply _ => .nfts
  | .nftUpdate _ => .nftProperties
  | .role _ | .properties _ => .roles
  | .stake _ => .delegation
  | .deployed _ | .upgraded _ | .ownerChanged _ => .contracts
  | .status _ _ => .informative

end Delta

namespace Outcome

def Plain : Outcome → Prop
  | notApplicable => True
  | processed deltas => ∀ delta ∈ deltas, delta.Plain

def From (c : Classifier) : Outcome → Prop
  | notApplicable => True
  | processed deltas => ∀ delta ∈ deltas, delta.Plain ∧ delta.source = c

variable {c : Classifier} {o : Outcome}

@[simp] theorem from_notApplicable : notApplicable.From c := trivial

@[simp] theorem from_processed {deltas : List Delta} :
    (processed deltas).From c ↔ ∀ delta ∈ deltas, delta.Plain ∧ delta.source = c := Iff.rfl

@[simp] theorem from_swallowed : swallowed.From c := by simp [swallowed]

@[simp] theorem from_single {delta : Delta} : (single delta).From c ↔ delta.Plain ∧ delta.source = c := by
  simp [single]

theorem From.plain (h : o.From c) : o.Plain := by
  cases o with
  | notApplicable => trivial
  | processed deltas => exact fun delta hd => (h delta hd).1

end Outcome

namespace Classify

variable (name : EventName) (event : Event) (ctx : EventContext)

theorem from_issue : (issue name event ctx).From .issue := by
  unfold issue
  repeat' split <;> try simp [Delta.Plain, Delta.source]

theorem from_nfts : (nfts name event ctx).From .nfts := by
  have created (token : Bytes) (nonce : UInt64) (rest : List Bytes) :
      (nftCreated token nonce rest ctx).From .nfts := by
    unfold nftCreated
    repeat' split <;> try simp [Delta.Plain, Delta.source]
  have removed (kind : SupplyKind) (token : Bytes) (nonce : UInt64) (value : Bytes) :
      (nftRemoved kind token nonce value ctx).From .nfts := by
    unfold nftRemoved
    split <;> simp [Delta.Plain, Delta.source]
  unfold nfts
  repeat' split <;> try simp [created, removed]

theorem from_nftProperties : (nftProperties name event ctx).From .nftProperties := by
  unfold nftProperties
  repeat' split <;> try simp [Delta.Plain, Delta.source]

theorem from_roles : (roles name event ctx).From .roles := by
  have properties (token : String) (topics : List Bytes) : (propertiesOf token topics).From .roles := by
    unfold propertiesOf
    split <;> simp [Delta.Plain, Delta.source]
  unfold roles
  repeat' split <;> try simp [Delta.Plain, Delta.source, properties]

theorem from_contracts : (contracts name event ctx).From .contracts := by
  have owner : (ownerChanged event ctx).From .contracts := by
    unfold ownerChanged
    split <;> simp [Delta.Plain, Delta.source]
  unfold contracts
  repeat' split <;> try simp [Delta.Plain, Delta.source, owner]

theorem from_delegation : (delegation name event ctx).From .delegation := by
  have rewards (address contract : String) (topics : List Bytes) :
      (rewardsClaimed address contract topics ctx).From .delegation := by
    unfold rewardsClaimed
    repeat' split <;> try simp [Delta.Plain, Delta.source]
  have stake (address contract : String) (topics : List Bytes) :
      (stakeChanged name address contract topics ctx).From .delegation := by
    unfold stakeChanged
    repeat' split <;> try simp [Delta.Plain, Delta.source]
  unfold delegation
  repeat' split <;> try simp [rewards, stake]

theorem signalOf?_plain {name : EventName} {signal : StatusInfo} (h : signalOf? name = some signal) :
    ∃ c f, signal = .ofFlags c f := by
  unfold signalOf? at h
  split at h <;> cases h
  · exact ⟨true, false, rfl⟩
  · exact ⟨true, false, rfl⟩
  · exact ⟨false, true, rfl⟩
  · exact ⟨false, true, rfl⟩

theorem from_informative : (informative name event ctx).From .informative := by
  unfold informative
  split
  · next h => exact Outcome.from_single.2 ⟨signalOf?_plain h, rfl⟩
  · simp

end Classify

/-- A classifier makes deltas of its own kinds. -/
theorem Classifier.from_classify (c : Classifier) (event : Event) (ctx : EventContext) :
    (c.classify event ctx).From c := by
  unfold classify
  split
  · next name _ =>
    cases c with
    | issue => exact Classify.from_issue name event ctx
    | nfts => exact Classify.from_nfts name event ctx
    | nftProperties => exact Classify.from_nftProperties name event ctx
    | roles => exact Classify.from_roles name event ctx
    | contracts => exact Classify.from_contracts name event ctx
    | delegation => exact Classify.from_delegation name event ctx
    | informative => exact Classify.from_informative name event ctx
  · exact Outcome.from_notApplicable

namespace BlockAccumulators

def Plain (acc : BlockAccumulators) : Prop :=
  acc.statuses.Sorted ∧ ∀ hash signal, acc.statuses.find? hash = some signal → ∃ c f, signal = .ofFlags c f

theorem Plain.add {acc : BlockAccumulators} (h : acc.Plain) {delta : Delta} (hd : delta.Plain) :
    (acc.add delta).Plain := by
  cases delta with
  | status hash signal =>
    obtain ⟨c, f, rfl⟩ := hd
    refine ⟨Dict.Sorted.alter h.1 hash fun known => (known.getD {}).latch (.ofFlags c f),
      fun other known hk => ?_⟩
    simp only [BlockAccumulators.add, Dict.find?_alter] at hk
    split at hk
    · obtain rfl := Option.some.inj hk
      cases hf : acc.statuses.find? hash with
      | none => exact ⟨c, f, StatusInfo.latch_of_unset "" c f⟩
      | some before =>
        obtain ⟨c', f', rfl⟩ := h.2 hash before hf
        exact ⟨c' || c, f' || f, StatusInfo.latch_ofFlags c' f' c f⟩
    · exact h.2 other known hk
  | nftUpdate u =>
    unfold BlockAccumulators.add addUpdate
    dsimp only
    split <;> exact h
  | _ => exact h

/-- What holds at first and is kept with every plain delta holds of all that is gathered. -/
theorem addAll_induction {motive : BlockAccumulators → List Delta → Prop}
    (step : ∀ (acc : BlockAccumulators) (events : List Delta) (delta : Delta), delta.Plain → motive acc events →
      motive (acc.add delta) (events ++ [delta]))
    {acc : BlockAccumulators} {events deltas : List Delta} (h : motive acc events)
    (hd : ∀ delta ∈ deltas, delta.Plain) : motive (acc.addAll deltas) (events ++ deltas) := by
  induction deltas generalizing acc events with
  | nil =>
    rw [List.append_nil]
    exact h
  | cons delta rest ih =>
    obtain ⟨hdelta, hrest⟩ := List.forall_mem_cons.1 hd
    have hadded := ih (step acc events delta hdelta h) hrest
    rw [List.append_assoc, List.singleton_append] at hadded
    exact hadded

end BlockAccumulators

namespace Registry

/-- Whatever classifier takes an event, its deltas are plain. -/
theorem plain_dispatch {r : Registry} {event : Event} {ctx : EventContext} {deltas : List Delta}
    (h : r.dispatch event ctx = some deltas) : ∀ delta ∈ deltas, delta.Plain := by
  obtain ⟨c, -, hc⟩ := List.exists_of_findSome?_eq_some h
  have plain := (c.from_classify event ctx).plain
  cases ho : c.classify event ctx with
  | notApplicable => simp [ho, Outcome.deltas?] at hc
  | processed given =>
    rw [ho] at plain hc
    obtain rfl := Option.some.inj hc
    exact plain

def deltas (r : Registry) (pool : Pool) (timestamp : UInt64) : List Delta :=
  (r.answers pool timestamp).flatMap (·.getD [])

theorem plain_deltas (r : Registry) (pool : Pool) (timestamp : UInt64) :
    ∀ delta ∈ r.deltas pool timestamp, delta.Plain := by
  intro delta hd
  obtain ⟨answer, ha, hanswer⟩ := List.mem_flatMap.1 hd
  obtain ⟨log, -, hl⟩ := List.mem_flatMap.1 ha
  obtain ⟨event, -, rfl⟩ := List.mem_map.1 hl
  cases hdispatch : r.dispatch event (r.context pool timestamp log) with
  | none =>
    rw [hdispatch] at hanswer
    cases hanswer
  | some deltas =>
    rw [hdispatch] at hanswer
    exact plain_dispatch hdispatch delta hanswer

theorem processLogs_eq_addAll (r : Registry) (pool : Pool) (timestamp : UInt64) :
    r.processLogs pool timestamp = BlockAccumulators.addAll {} (r.deltas pool timestamp) :=
  List.foldl_flatMap.symm

/-- What is gathered from the logs of a block, by induction on its deltas. -/
theorem processLogs_induction {motive : BlockAccumulators → List Delta → Prop} (r : Registry) (pool : Pool)
    (timestamp : UInt64) (start : motive {} [])
    (step : ∀ (acc : BlockAccumulators) (events : List Delta) (delta : Delta), delta.Plain → motive acc events →
      motive (acc.add delta) (events ++ [delta])) :
    motive (r.processLogs pool timestamp) (r.deltas pool timestamp) := by
  rw [processLogs_eq_addAll]
  exact BlockAccumulators.addAll_induction step start (r.plain_deltas pool timestamp)

/-- What the logs of a block say of a transaction is a pair of flags. -/
theorem plain_processLogs (r : Registry) (pool : Pool) (timestamp : UInt64) :
    (r.processLogs pool timestamp).Plain := by
  have start : ({} : BlockAccumulators).Plain := ⟨List.Pairwise.nil, fun _ _ h => by cases h⟩
  exact r.processLogs_induction (motive := fun acc _ => acc.Plain) pool timestamp start
    fun _ _ _ hd h => h.add hd

end Registry
end ChainIndex
