import ChainIndex.Accumulator.Block
import ChainIndex.Proofs.Write.Touch

/-!
The changes of contracts: all of them simple, so making them again changes nothing more.
-/
namespace ChainIndex

theorem Deployment.simple_mutations (d : Deployment) : ∀ m ∈ d.mutations, m.Simple := by
  intro m hm
  simp only [mutations, List.mem_cons, List.not_mem_nil, or_false] at hm
  rcases hm with rfl | rfl
  · refine Mutation.simple_merge ?_ ?_
    · split <;> simp
    · split <;> simp
  · exact Mutation.simple_mergeIfAbsent (by simp)

theorem Upgrade.simple_mutations (u : Upgrade) : ∀ m ∈ u.mutations, m.Simple := by
  intro m hm
  rcases List.mem_append.1 hm with hm | hm
  · split at hm
    · cases hm
    · rw [List.mem_singleton.1 hm]
      exact Mutation.simple_merge (by simp) (by simp)
  · rw [List.mem_singleton.1 hm]
    refine Mutation.simple_addToSet rfl fun v hv => ?_
    rw [List.mem_singleton.1 hv]
    exact (Value.isDocument_record (by simp)).ordered

theorem OwnerChange.simple_mutations (c : OwnerChange) : ∀ m ∈ c.mutations, m.Simple := by
  intro m hm
  simp only [mutations, List.mem_cons, List.not_mem_nil, or_false] at hm
  rcases hm with rfl | rfl
  · exact Mutation.simple_merge (by simp) (by simp)
  · refine Mutation.simple_addToSet rfl fun v hv => ?_
    rw [List.mem_singleton.1 hv]
    exact (Value.isDocument_record (by simp)).ordered

end ChainIndex
