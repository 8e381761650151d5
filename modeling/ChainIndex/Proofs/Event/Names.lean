import ChainIndex.Accumulator.Block
import Mathlib.Data.List.Basic

/-!
The names in events, of tokens and collections and of non-fungible tokens, and the funds that stakes give
back.
-/
namespace ChainIndex

namespace Delta

def tokenNames : Delta → List String
  | token info => [info.token]
  | nftCreated info => [info.token]
  | nftUpdate ⟨identifier, _, .pause⟩ => [identifier]
  | nftUpdate ⟨identifier, _, .unPause⟩ => [identifier]
  | supply change => [change.token]
  | role change => [change.token]
  | properties change => [change.token]
  | _ => []

def nftNames : Delta → List String
  | nftCreated info => [info.identifier]
  | nftUpdate ⟨_, _, .pause⟩ => []
  | nftUpdate ⟨_, _, .unPause⟩ => []
  | nftUpdate u => [u.identifier]
  | supply change => [change.identifier]
  | _ => []

def stake? : Delta → Option StakeChange
  | stake change => some change
  | _ => none

section Append

variable {names : Delta → List String} {events more : List Delta} {name : String}

theorem mem_names_of_subset (hm : events ⊆ more) (h : name ∈ events.flatMap names) : name ∈ more.flatMap names := by
  obtain ⟨delta, hd, hname⟩ := List.mem_flatMap.1 h
  exact List.mem_flatMap.2 ⟨delta, hm hd, hname⟩

theorem mem_names_left (h : name ∈ events.flatMap names) : name ∈ (events ++ more).flatMap names :=
  mem_names_of_subset (List.subset_append_left events more) h

theorem mem_names_right (h : name ∈ more.flatMap names) : name ∈ (events ++ more).flatMap names :=
  mem_names_of_subset (List.subset_append_right events more) h

end Append

end Delta

/-- No token or collection has the name of a non-fungible token. -/
def NamesApart (events : List Delta) : Prop :=
  ∀ name ∈ events.flatMap Delta.tokenNames, name ∉ events.flatMap Delta.nftNames

instance (events : List Delta) : Decidable (NamesApart events) :=
  inferInstanceAs (Decidable (∀ name ∈ events.flatMap Delta.tokenNames, name ∉ events.flatMap Delta.nftNames))

/-- Fewer names are apart still. -/
theorem NamesApart.mono {events more : List Delta} (h : NamesApart events) (hm : more ⊆ events) : NamesApart more :=
  fun name ht hn => h name (Delta.mem_names_of_subset hm ht) (Delta.mem_names_of_subset hm hn)

def stakeChanges (events : List Delta) : List StakeChange := events.filterMap Delta.stake?

/-- No fund of a delegator's document is un-delegated after an earlier event withdrew it. -/
def FundsKept (events : List Delta) : Prop :=
  (stakeChanges events).Pairwise fun earlier later =>
    delegatorId earlier.address earlier.contract = delegatorId later.address later.contract →
      ∀ u, later.unDelegated = some u → u.id ∉ earlier.withdrawnFunds

instance (events : List Delta) : Decidable (FundsKept events) :=
  have (earlier later : StakeChange) : Decidable (∀ u, later.unDelegated = some u → u.id ∉ earlier.withdrawnFunds) :=
    Option.decidableForallMem (o := later.unDelegated)
  inferInstanceAs (Decidable (List.Pairwise _ _))

end ChainIndex
