import ChainIndex.Counters

/-!
Counters with one count for each kind. Adding to a kind changes its count alone.
-/
namespace ChainIndex
namespace Counters

variable {κ : Type}

/-- Every kind has its counter. -/
def Complete (c : Counters κ) : Prop := ∀ kind, kind ∈ c.counts.map Prod.fst

theorem complete_start_of_all [CounterKind κ] (h : ∀ kind : κ, kind ∈ CounterKind.all) :
    (start : Counters κ).Complete := by
  intro kind
  simpa [start] using h kind

variable [DecidableEq κ]

theorem Complete.add {c : Counters κ} (h : c.Complete) (kind : κ) (amount : UInt64) :
    (c.add kind amount).Complete := by
  have hkeys : (c.add kind amount).counts.map Prod.fst = c.counts.map Prod.fst := by
    rw [Counters.add, List.map_map]
    refine List.map_congr_left fun e _ => ?_
    dsimp only [Function.comp]
    split <;> rfl
  intro other
  rw [hkeys]
  exact h other

/-- Other counters stay as they are. -/
theorem Complete.get_add {c : Counters κ} (h : c.Complete) (kind : κ) (amount : UInt64) (other : κ) :
    (c.add kind amount).get other = if kind = other then c.get other + amount else c.get other := by
  obtain ⟨found, hfound, hkind⟩ := List.mem_map.1 (h kind)
  unfold get Counters.add
  rw [List.find?_map]
  have hkeys : ((fun e : κ × UInt64 => decide (e.1 = other)) ∘ fun (k, count) =>
      if k = kind then (k, count + amount) else (k, count)) = fun e => decide (e.1 = other) := by
    funext e
    dsimp only [Function.comp]
    split <;> rfl
  rw [hkeys]
  cases hf : c.counts.find? fun e => decide (e.1 = other) with
  | none =>
    have hne : kind ≠ other := by
      rintro rfl
      exact List.find?_eq_none.1 hf found hfound (decide_eq_true hkind)
    rw [if_neg hne]
    rfl
  | some e =>
    obtain rfl : e.1 = other := by simpa using List.find?_some hf
    by_cases hkind : kind = e.1
    · simp [hkind]
    · simp [hkind, Ne.symm hkind]

theorem Complete.get_increment {c : Counters κ} (h : c.Complete) (kind other : κ) :
    (c.increment kind).get other = if kind = other then c.get other + 1 else c.get other :=
  h.get_add kind 1 other

end Counters
end ChainIndex
