import ChainIndex.Proofs.Event.Signals
import ChainIndex.Proofs.Write.Ordered

/-!
The statuses that blocks gather. What is gathered of a transaction is its signals, latched into one record, so the
records of several blocks do to a document what the signals in them do. The signals of events are flags alone, and
then no order of logs or of the events in them shows in the records.
-/
namespace ChainIndex

def Delta.signalFor? (hash : String) : Delta → Option StatusInfo
  | .status other signal => if other = hash then some signal else none
  | _ => none

def signalsFor (hash : String) (events : List Delta) : List StatusInfo := events.filterMap (Delta.signalFor? hash)

theorem plain_signalsFor {events : List Delta} (h : ∀ delta ∈ events, delta.Plain) (hash : String) :
    ∀ s ∈ signalsFor hash events, ∃ c f, s = .ofFlags c f := by
  intro s hs
  obtain ⟨delta, hd, hsignal⟩ := List.mem_filterMap.1 hs
  cases delta with
  | status other signal =>
    simp only [Delta.signalFor?, Option.ite_none_right_eq_some, Option.some.injEq] at hsignal
    obtain ⟨-, rfl⟩ := hsignal
    exact h _ hd
  | _ => cases hsignal

namespace BlockAccumulators

variable {acc : BlockAccumulators} {delta : Delta}

theorem find?_statuses_add (acc : BlockAccumulators) (delta : Delta) (hash : String) :
    (acc.add delta).statuses.find? hash =
      (delta.signalFor? hash).toList.foldl (StatusInfo.latchOn none) (acc.statuses.find? hash) := by
  cases delta with
  | status other signal =>
    rw [BlockAccumulators.add, Dict.find?_alter, Delta.signalFor?]
    split
    · next ho => rw [ho]; rfl
    · rfl
  | nftUpdate u =>
    unfold BlockAccumulators.add addUpdate
    dsimp only
    split <;> rfl
  | _ => rfl

/-- The status of a hash is all signals about it, latched in order. -/
theorem find?_statuses_addAll (acc : BlockAccumulators) (events : List Delta) (hash : String) :
    (acc.addAll events).statuses.find? hash =
      (signalsFor hash events).foldl (StatusInfo.latchOn none) (acc.statuses.find? hash) := by
  induction events generalizing acc with
  | nil => rfl
  | cons delta rest ih =>
    refine (ih (acc.add delta)).trans ?_
    rw [find?_statuses_add, signalsFor, signalsFor, List.filterMap_cons]
    cases delta.signalFor? hash <;> rfl

end BlockAccumulators

def StatusInfo.summary? (signals : List StatusInfo) : Option StatusInfo :=
  if signals.isEmpty then none else some (latchAll signals)

theorem StatusInfo.foldl_latchOn_none (signals : List StatusInfo) : signals.foldl (latchOn none) none = summary? signals := by
  cases signals with
  | nil => rfl
  | cons s rest =>
    have hsome (known : StatusInfo) : rest.foldl (latchOn none) (some known) = some (rest.foldl latch known) := by
      induction rest generalizing known with
      | nil => rfl
      | cons r rest ih => exact ih (known.latch r)
    exact hsome _

/-- Flags are summed up alike in every order. -/
theorem StatusInfo.summary?_perm {signals others : List StatusInfo} (h : signals.Perm others)
    (plain : ∀ s ∈ signals, ∃ c f, s = ofFlags c f) : summary? others = summary? signals := by
  have hempty : others.isEmpty = signals.isEmpty := by
    rw [Bool.eq_iff_iff, List.isEmpty_iff, List.isEmpty_iff]
    exact ⟨fun he => List.Perm.eq_nil (he ▸ h), fun he => List.Perm.eq_nil (he ▸ h.symm)⟩
  unfold summary?
  rw [hempty]
  split
  · rfl
  · next hne =>
    have hsignals : signals ≠ [] := fun he => hne (List.isEmpty_iff.2 he)
    have hothers : others ≠ [] := fun he => hsignals (List.Perm.eq_nil (he ▸ h))
    rw [latchAll_ofFlags hsignals plain, latchAll_ofFlags hothers fun s hs => plain s (h.mem_iff.2 hs),
      h.any_eq, h.any_eq]

/-- The same events in any order. -/
def Log.Shuffles (log other : Log) : Prop := ∃ events, log.events.Perm events ∧ other = { log with events }

/-- The same logs in any order, and in each of them the same events in any order. -/
def Pool.Shuffles (pool other : Pool) : Prop :=
  ∃ moved logs, pool.logs.Perm moved ∧ List.Forall₂ Log.Shuffles moved logs ∧ other = { pool with logs }

namespace Registry

variable {r : Registry} {pool other : Pool}

/-- The record of a transaction is that of its signals. -/
theorem find?_statuses_processLogs (r : Registry) (pool : Pool) (timestamp : UInt64) (hash : String) :
    (r.processLogs pool timestamp).statuses.find? hash =
      StatusInfo.summary? (signalsFor hash (r.deltas pool timestamp)) := by
  rw [processLogs_eq_addAll, BlockAccumulators.find?_statuses_addAll]
  exact StatusInfo.foldl_latchOn_none _

/-- Events in another order say the same, in another order. -/
theorem perm_deltas (h : pool.Shuffles other) (timestamp : UInt64) :
    (r.deltas pool timestamp).Perm (r.deltas other timestamp) := by
  obtain ⟨moved, logs, hmoved, hevents, rfl⟩ := h
  refine List.Perm.flatMap_right _ ((hmoved.flatMap_right _).trans ?_)
  -- the surroundings of an event hang on its log and on the results in the pool, which are as before
  change (moved.flatMap fun log => log.events.map (r.dispatch · (r.context pool timestamp log))).Perm
    (logs.flatMap fun log => log.events.map (r.dispatch · (r.context pool timestamp log)))
  clear hmoved
  induction hevents with
  | nil => exact List.Perm.refl _
  | @cons log shuffled moved logs hlog _ ih =>
    obtain ⟨events, hperm, rfl⟩ := hlog
    rw [List.flatMap_cons, List.flatMap_cons]
    exact (hperm.map _).append ih

theorem statuses_shuffled (h : pool.Shuffles other) (timestamp : UInt64) :
    (r.processLogs other timestamp).statuses = (r.processLogs pool timestamp).statuses := by
  refine Dict.Sorted.ext (r.plain_processLogs other timestamp).1 (r.plain_processLogs pool timestamp).1 fun hash => ?_
  rw [find?_statuses_processLogs, find?_statuses_processLogs]
  exact StatusInfo.summary?_perm ((perm_deltas h timestamp).filterMap _)
    (plain_signalsFor (r.plain_deltas pool timestamp) hash)

def signalsIn (hash : String) (block : Registry × Block) : List StatusInfo :=
  signalsFor hash (block.1.deltas block.2.pool block.2.header.timestamp)

/-- The records of a transaction in the blocks that have one, as changes of its document. -/
def recordsOf (hash : String) (blocks : List (Registry × Block)) : List Mutation :=
  blocks.filterMap fun block =>
    ((block.1.processLogs block.2.pool block.2.header.timestamp).statuses.find? hash).map .latchStatus

/-- A block with any signal of the transaction writes one change, and the others none. -/
theorem recordsOf_eq (hash : String) (blocks : List (Registry × Block)) :
    recordsOf hash blocks =
      ((blocks.map (signalsIn hash)).filter (!·.isEmpty)).map fun g => .latchStatus (.latchAll g) := by
  induction blocks with
  | nil => rfl
  | cons block rest ih =>
    rw [recordsOf, List.filterMap_cons, find?_statuses_processLogs, List.map_cons, List.filter_cons,
      StatusInfo.summary?, ← signalsIn]
    cases (signalsIn hash block).isEmpty with
    | true => exact ih
    | false => exact congrArg _ ih

/-- Block by block the records do what the signals do. -/
theorem applyAll_recordsOf (hash : String) (blocks : List (Registry × Block)) (doc : Value) :
    Mutation.applyAll (recordsOf hash blocks) doc =
      Mutation.applyAll ((blocks.flatMap (signalsIn hash)).map .latchStatus) doc := by
  have hgroups : ∀ g ∈ (blocks.map (signalsIn hash)).filter (!·.isEmpty), g ≠ [] := fun g hg => by
    simpa using (List.mem_filter.1 hg).2
  rw [recordsOf_eq, Mutation.applyAll_latchAll hgroups, List.flatten_filter_not_isEmpty, List.flatMap_def]

end Registry

open Mutation (applyAll latchStatus setStatus statusOf) in
/-- Latching is associative, with the fresh record as left identity. So signals cut into groups leave every document
as they do one by one: the flags are those of the document and of all signals, and the label is that of the last
failure or else, unless the document told of one, of the last signal. The records of a block do not hang on the order of
its logs and events, and those of several blocks do in turn what all signals in them do. -/
theorem signals_group_freely :
    (∀ a b c : StatusInfo, (a.latch b).latch c = a.latch (b.latch c)) ∧
    (∀ s : StatusInfo, ({} : StatusInfo).latch s = s) ∧
    (∀ (groups : List (List StatusInfo)) (doc : Value), (∀ g ∈ groups, g ≠ []) →
      applyAll (groups.map fun g => latchStatus (g.foldl StatusInfo.latch {})) doc =
        applyAll (groups.flatten.map latchStatus) doc) ∧
    (∀ (signals : List StatusInfo) (doc : Value), signals ≠ [] →
      applyAll (signals.map latchStatus) doc = setStatus ((statusOf doc).afterAll signals) doc) ∧
    (∀ (r : Registry) (pool other : Pool) (timestamp : UInt64), pool.Shuffles other →
      (r.processLogs other timestamp).statuses = (r.processLogs pool timestamp).statuses) ∧
    ∀ (hash : String) (blocks : List (Registry × Block)) (doc : Value),
      applyAll (Registry.recordsOf hash blocks) doc =
        applyAll ((blocks.flatMap (Registry.signalsIn hash)).map latchStatus) doc := by
  refine ⟨StatusInfo.latch_assoc, StatusInfo.default_latch, fun groups doc h => Mutation.applyAll_latchAll h doc,
    fun signals doc h => ?_, fun r pool other timestamp h => Registry.statuses_shuffled h timestamp,
    Registry.applyAll_recordsOf⟩
  rw [Mutation.applyAll_latchStatus h, StatusInfo.foldl_latch_eq_afterAll]

open Mutation (applyAll latchStatus setStatus statusOf) in
/-- A failure in one log and a completion in another, in both orders, and in groups on a document that is no object. -/
theorem signals_group_freely_failed :
    let failed : Log := { txHash := "aa", events := [{ identifier := "signalError" }] }
    let completed : Log := { txHash := "aa", events := [{ identifier := "completedTxEvent" }] }
    let groups : List (List StatusInfo) := [[.ofFailure, .ofCompletion], [.ofCompletion]]
    let pool : Pool := { logs := [failed, completed] }
    let other : Pool := { logs := [completed, failed] }
    (∀ g ∈ groups, g ≠ []) ∧ groups.flatten ≠ [] ∧ pool.Shuffles other ∧
      applyAll (groups.map fun g => latchStatus (g.foldl StatusInfo.latch {})) .null =
        setStatus ⟨true, true, "fail"⟩ .null ∧
      (({} : Registry).processLogs other 0).statuses = (({} : Registry).processLogs pool 0).statuses ∧
      (({} : Registry).processLogs other 0).statuses = [("aa", ⟨true, true, "fail"⟩)] := by
  intro failed completed groups pool other
  obtain ⟨-, -, hgroups, hsignals, hshuffled, -⟩ := signals_group_freely
  have hne : ∀ g ∈ groups, g ≠ [] := by decide
  have hall : groups.flatten ≠ [] := by decide
  have hpool : pool.Shuffles other := by
    refine ⟨[completed, failed], [completed, failed], List.Perm.swap _ _ _, ?_, rfl⟩
    exact .cons ⟨_, .refl _, rfl⟩ (.cons ⟨_, .refl _, rfl⟩ .nil)
  refine ⟨hne, hall, hpool, ?_, hshuffled {} pool other 0 hpool, by decide +kernel⟩
  rw [hgroups groups .null hne, hsignals groups.flatten .null hall]
  rfl

end ChainIndex
