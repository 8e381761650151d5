import ChainIndex.Proofs.Accumulator.Roles
import ChainIndex.Proofs.Items

/-!
The stakes of one delegator. The one write that a block makes of them does what a write for each change does in turn:
a deletion makes all before it void, whatever was stored, and after it the document is made anew.
-/
namespace ChainIndex
namespace StakeChange

/-- What the change does to the delegator's document by itself. -/
def action (c : StakeChange) : WriteAction := if c.shouldDelete then .delete else .upsert c.mutations

theorem action_of_deletion {c : StakeChange} (h : c.shouldDelete = true) : c.action = .delete := by
  simp [action, h]

theorem action_of_kept {c : StakeChange} (h : c.shouldDelete = false) : c.action = .upsert c.mutations := by
  simp [action, h]

theorem mutations_ne_nil (c : StakeChange) : c.mutations ≠ [] := by simp [mutations]

def fundsIn (stored : Option Value) : List Value := Value.itemsOf (Value.under stored fundsField)

/-- A change that keeps the document adds the fund that is un-delegated, and then drops those that are withdrawn. -/
theorem fundsIn_action {c : StakeChange} (h : c.shouldDelete = false) (stored : Option Value) :
    fundsIn (c.action.apply stored) = c.onFunds (fundsIn stored) := by
  rw [action_of_kept h, WriteAction.apply, fundsIn, Value.under_some, get?_mutations_funds,
    ItemEdit.itemsOf_below_nil c.lawful_edit, Value.get?_getD_empty]
  rfl

/-- Changes that keep the document are one upsert. -/
theorem applyAll_action_of_kept {c : StakeChange} {rest : List StakeChange}
    (h : ∀ d ∈ c :: rest, d.shouldDelete = false) (stored : Option Value) :
    WriteAction.applyAll ((c :: rest).map action) stored =
      some (Mutation.applyAll ((c :: rest).flatMap mutations) (stored.getD .empty)) := by
  induction rest generalizing c stored with
  | nil =>
    rw [List.flatMap_cons, List.flatMap_nil, List.append_nil, List.map_singleton, action_of_kept (h c List.mem_cons_self)]
    rfl
  | cons d rest ih =>
    obtain ⟨hc, hrest⟩ := List.forall_mem_cons.1 h
    rw [List.flatMap_cons, Mutation.applyAll_append]
    refine (ih hrest (c.action.apply stored)).trans ?_
    rw [action_of_kept hc]
    rfl

end StakeChange

namespace DelegatorAccumulator

variable {cs : List StakeChange} {c : StakeChange}

def gather (cs : List StakeChange) : DelegatorAccumulator := cs.foldl add {}

theorem action_add_empty (c : StakeChange) : (({} : DelegatorAccumulator).add c).action = c.action := by
  unfold DelegatorAccumulator.add StakeChange.action
  split <;> rfl

/-- One more change acts after what was gathered before it. -/
theorem apply_action_add (acc : DelegatorAccumulator) (c : StakeChange) (stored : Option Value) :
    (acc.add c).action.apply stored = c.action.apply (acc.action.apply stored) := by
  obtain ⟨ms, deleted⟩ := acc
  cases hd : c.shouldDelete with
  | true => simp [DelegatorAccumulator.add, hd, StakeChange.action_of_deletion hd, DelegatorAccumulator.action,
      WriteAction.apply]
  | false =>
    have hne := c.mutations_ne_nil
    rw [StakeChange.action_of_kept hd]
    cases deleted with
    | false => simp [DelegatorAccumulator.add, hd, DelegatorAccumulator.action, WriteAction.apply,
        Mutation.applyAll_append]
    | true =>
      -- what is deleted is made anew by the first change that keeps it
      cases ms with
      | nil =>
        obtain ⟨m, rest, hms⟩ := List.exists_cons_of_ne_nil hne
        simp [DelegatorAccumulator.add, hd, DelegatorAccumulator.action, WriteAction.apply, hms]
      | cons m rest =>
        simp [DelegatorAccumulator.add, hd, DelegatorAccumulator.action, WriteAction.apply, Mutation.applyAll_append]

/-- Stakes gathered in one write have the effect of the writes of each, one after the other. -/
theorem apply_action_foldl (acc : DelegatorAccumulator) (cs : List StakeChange) (stored : Option Value) :
    (cs.foldl add acc).action.apply stored =
      WriteAction.applyAll (cs.map StakeChange.action) (acc.action.apply stored) := by
  induction cs generalizing acc with
  | nil => rfl
  | cons c rest ih =>
    rw [List.foldl_cons, ih, apply_action_add]
    rfl

theorem apply_action_gather (h : cs ≠ []) (stored : Option Value) :
    (gather cs).action.apply stored = WriteAction.applyAll (cs.map StakeChange.action) stored := by
  cases cs with
  | nil => exact absurd rfl h
  | cons c rest =>
    rw [gather, List.foldl_cons, apply_action_foldl, action_add_empty]
    rfl

/-- All that is left after a deletion is what comes after it. -/
theorem apply_action_gather_deletion (h : c.shouldDelete = true) (before after : List StakeChange)
    (stored : Option Value) :
    (gather (before ++ c :: after)).action.apply stored =
      WriteAction.applyAll (after.map StakeChange.action) none := by
  rw [apply_action_gather (by simp), List.map_append, List.map_cons, StakeChange.action_of_deletion h]
  exact List.foldl_append

end DelegatorAccumulator

namespace BlockAccumulators

def gatherOn (known : Option DelegatorAccumulator) (c : StakeChange) : Option DelegatorAccumulator :=
  some ((known.getD {}).add c)

/-- A delta concerns the delegator whose stake it changes, and no other. -/
theorem find?_delegators_add (acc : BlockAccumulators) (delta : Delta) (id : String) :
    (acc.add delta).delegators.find? id = (stakesOf [delta] id).foldl gatherOn (acc.delegators.find? id) := by
  cases delta with
  | stake c =>
    rw [BlockAccumulators.add, Dict.find?_alter]
    split
    · next hid => simp [stakesOf, stakeChanges, Delta.stake?, hid, gatherOn]
    · next hid => simp [stakesOf, stakeChanges, Delta.stake?, hid]
  | nftUpdate u =>
    unfold BlockAccumulators.add addUpdate
    dsimp only
    split <;> rfl
  | _ => rfl

/-- What is gathered of a delegator comes from the stakes of its document alone. -/
theorem find?_delegators_addAll (acc : BlockAccumulators) (events : List Delta) (id : String) :
    (acc.addAll events).delegators.find? id = (stakesOf events id).foldl gatherOn (acc.delegators.find? id) := by
  induction events generalizing acc with
  | nil => rfl
  | cons delta rest ih =>
    have hsplit : stakesOf (delta :: rest) id = stakesOf [delta] id ++ stakesOf rest id := stakesOf_append [delta] rest id
    rw [hsplit, List.foldl_append, ← find?_delegators_add]
    exact ih (acc.add delta)

theorem sorted_delegators_addAll {acc : BlockAccumulators} (h : acc.delegators.Sorted) (events : List Delta) :
    (acc.addAll events).delegators.Sorted := by
  refine List.foldlRecOn (motive := fun acc : BlockAccumulators => acc.delegators.Sorted) events _ h
    fun acc hacc delta _ => ?_
  cases delta with
  | stake c => exact Dict.Sorted.insert hacc _ _
  | nftUpdate u =>
    unfold BlockAccumulators.add addUpdate
    dsimp only
    split <;> exact hacc
  | _ => exact hacc

/-- A document has the accumulator of its stakes, if there are any. -/
theorem find?_delegators (events : List Delta) (id : String) :
    (({} : BlockAccumulators).addAll events).delegators.find? id =
      if (stakesOf events id).isEmpty then none else some (.gather (stakesOf events id)) := by
  rw [find?_delegators_addAll]
  cases stakesOf events id with
  | nil => rfl
  | cons c rest =>
    have hsome (known : DelegatorAccumulator) : rest.foldl gatherOn (some known) = some (rest.foldl .add known) := by
      induction rest generalizing known with
      | nil => rfl
      | cons d rest ih => exact ih (known.add d)
    exact hsome _

/-- The write of a document does what its stakes do one by one. -/
theorem applyAt_delegatorWrites (events : List Delta) (id : String) (stored : Option Value) :
    WriteItem.applyAt id (({} : BlockAccumulators).addAll events).delegatorWrites stored =
      WriteAction.applyAll ((stakesOf events id).map StakeChange.action) stored := by
  have hempty : ({} : BlockAccumulators).delegators.Sorted := List.Pairwise.nil
  have hsorted := sorted_delegators_addAll hempty events
  refine (WriteItem.applyAt_map id stored hsorted.nodup_keys fun _ d => d.action).trans ?_
  rw [find?_delegators]
  cases hs : stakesOf events id with
  | nil => rfl
  | cons c rest => exact DelegatorAccumulator.apply_action_gather (List.cons_ne_nil c rest) stored

end BlockAccumulators

namespace DelegatorAccumulator

open StakeChange (fundsIn without)
open WriteAction (applyAll)

/-- What is gathered of a delegator's changes is written in one go, and does what each change does in turn. Nothing
before a deletion counts; what comes after one makes the document anew. A withdrawal leaves none of its funds on their
way back, and the others in their order. -/
theorem gathered_stakes_refine (events : List Delta) (id : String) (before after : List StakeChange) (c : StakeChange)
    (stored : Option Value) :
    WriteItem.applyAt id (({} : BlockAccumulators).addAll events).delegatorWrites stored =
        applyAll ((stakesOf events id).map StakeChange.action) stored ∧
      (gather (before ++ c :: after)).action.apply stored =
        applyAll ((before ++ c :: after).map StakeChange.action) stored ∧
      (c.shouldDelete = true →
        (gather (before ++ c :: after)).action.apply stored = applyAll (after.map StakeChange.action) none) ∧
      (c.shouldDelete = true → after ≠ [] → (∀ d ∈ after, d.shouldDelete = false) →
        (gather (before ++ c :: after)).action.apply stored =
          some (Mutation.applyAll (after.flatMap StakeChange.mutations) .empty)) ∧
      (c.shouldDelete = false →
        let earlier := fundsIn (applyAll (before.map StakeChange.action) stored)
        let later := fundsIn ((gather (before ++ [c])).action.apply stored)
        later = ((c.unDelegated.toList.map UnDelegateInfo.toItem).foldl Value.addItem earlier).filter
            (without c.withdrawnFunds) ∧
          ∀ fund ∈ later, ∀ gone ∈ c.withdrawnFunds, fund.get? "id" ≠ some (.str gone)) := by
  refine ⟨BlockAccumulators.applyAt_delegatorWrites events id stored, apply_action_gather (by simp) stored,
    fun hc => apply_action_gather_deletion hc before after stored, fun hc hafter hkept => ?_, fun hc => ?_⟩
  · rw [apply_action_gather_deletion hc]
    obtain ⟨d, rest, rfl⟩ := List.exists_cons_of_ne_nil hafter
    exact StakeChange.applyAll_action_of_kept hkept none
  · have hstep : (gather (before ++ [c])).action.apply stored =
        c.action.apply (applyAll (before.map StakeChange.action) stored) := by
      rw [apply_action_gather (by simp), List.map_append]
      exact List.foldl_append
    have hfunds : fundsIn ((gather (before ++ [c])).action.apply stored) =
        c.onFunds (fundsIn (applyAll (before.map StakeChange.action) stored)) := by
      rw [hstep, StakeChange.fundsIn_action hc]
    refine ⟨hfunds, fun fund hfund gone hgone hid => ?_⟩
    rw [hfunds] at hfund
    have hwithout : without c.withdrawnFunds fund = true := (List.mem_filter.1 hfund).2
    rw [← Bool.not_eq_false, StakeChange.without_eq_false_iff] at hwithout
    exact hwithout ⟨gone, hgone, hid⟩

open StakeChange (fundsIn) in
/-- A delegator who leaves and stakes again has a new document, and of two funds on their way back the one that is
withdrawn goes. -/
theorem gathered_stakes_refine_left :
    let unDelegates (fund : String) : StakeChange :=
      { address := "erd1d", contract := "erd1c", unDelegated := some { id := fund } }
    let leaves : StakeChange := { address := "erd1d", contract := "erd1c", shouldDelete := true }
    let stakes : StakeChange := { address := "erd1d", contract := "erd1c", activeStake := "7" }
    let withdraws : StakeChange := { address := "erd1d", contract := "erd1c", withdrawnFunds := ["f1"] }
    let again : List StakeChange := [leaves, unDelegates "f1", unDelegates "f2"]
    leaves.shouldDelete = true ∧ [stakes] ≠ [] ∧ stakes.shouldDelete = false ∧
      (gather [unDelegates "f1", leaves, stakes]).action.apply (some (.str "old")) =
        some (Mutation.applyAll stakes.mutations .empty) ∧
      withdraws.shouldDelete = false ∧
      ((fundsIn ((gather (again ++ [withdraws])).action.apply none)).map fun fund =>
        (fund.get? "id").bind Value.text?) = [some "f2"] := by
  intro unDelegates leaves stakes withdraws again
  have hkept : ∀ d ∈ [stakes], d.shouldDelete = false := by decide
  obtain ⟨-, -, -, hanew, -⟩ :=
    gathered_stakes_refine [] "" [unDelegates "f1"] [stakes] leaves (some (.str "old"))
  obtain ⟨-, -, -, -, hwithdrawn⟩ := gathered_stakes_refine [] "" again [] withdraws none
  refine ⟨rfl, by decide, rfl, hanew rfl (by decide) hkept, rfl, ?_⟩
  rw [(hwithdrawn rfl).1]
  decide +kernel

end DelegatorAccumulator
end ChainIndex
