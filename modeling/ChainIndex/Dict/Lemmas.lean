import ChainIndex.Dict

/-!
Dictionaries in key order: every operation keeps the order, and look-ups alone tell two of them apart.
-/
namespace ChainIndex
namespace Dict

variable {α : Type}

theorem eq_or_mem_of_mem_insert {d : Dict α} {key : String} {value : α} {e : String × α}
    (h : e ∈ d.insert key value) : e = (key, value) ∨ e ∈ d := by
  induction d with
  | nil => simpa [insert] using h
  | cons entry rest ih =>
    obtain ⟨k, v⟩ := entry
    simp only [insert] at h
    split at h
    · rcases List.mem_cons.1 h with h | h
      · exact .inl h
      · exact .inr (List.mem_cons_of_mem _ h)
    · split at h
      · rcases List.mem_cons.1 h with h | h
        · exact .inl h
        · exact .inr h
      · rcases List.mem_cons.1 h with h | h
        · exact .inr (h ▸ List.mem_cons_self)
        · exact (ih h).imp id (List.mem_cons_of_mem _)

/-- Insertion keeps the keys in order. -/
theorem Sorted.insert {d : Dict α} (h : d.Sorted) (key : String) (value : α) :
    (d.insert key value).Sorted := by
  induction d with
  | nil => simp [Dict.insert, Sorted]
  | cons entry rest ih =>
    obtain ⟨k, v⟩ := entry
    obtain ⟨below, sorted⟩ := List.pairwise_cons.1 h
    simp only [Dict.insert]
    split
    · next same =>
      subst same
      exact List.pairwise_cons.2 ⟨below, sorted⟩
    · next different =>
      split
      · next lt =>
        refine List.pairwise_cons.2 ⟨fun e mem => ?_, h⟩
        rcases List.mem_cons.1 mem with rfl | mem
        · exact lt
        · exact String.lt_trans lt (below e mem)
      · next notLt =>
        refine List.pairwise_cons.2 ⟨fun e mem => ?_, ih sorted⟩
        rcases eq_or_mem_of_mem_insert mem with rfl | mem
        · exact Std.lt_of_le_of_ne (String.not_lt.1 notLt) different
        · exact below e mem

theorem Sorted.erase {d : Dict α} (h : d.Sorted) (key : String) : (d.erase key).Sorted :=
  List.Pairwise.filter _ h

theorem Sorted.extend {d : Dict α} (h : d.Sorted) (more : Dict α) : (d.extend more).Sorted := by
  induction more generalizing d with
  | nil => exact h
  | cons entry rest ih => exact ih (h.insert entry.1 entry.2)

theorem sorted_ofList (entries : List (String × α)) : (ofList entries).Sorted :=
  Sorted.extend List.Pairwise.nil entries

theorem find?_eq_none_of_lt {d : Dict α} {key : String} (h : ∀ e ∈ d, key < e.1) :
    d.find? key = none := by
  induction d with
  | nil => rfl
  | cons entry rest ih =>
    obtain ⟨k, v⟩ := entry
    have lt : key < k := h _ List.mem_cons_self
    have different : k ≠ key := fun same => String.lt_irrefl k (same ▸ lt)
    simp [find?, different, ih fun e mem => h e (List.mem_cons_of_mem _ mem)]

/-- Sorted dictionaries that answer every look-up alike are the same. -/
theorem Sorted.ext {d e : Dict α} (hd : d.Sorted) (he : e.Sorted)
    (h : ∀ key, d.find? key = e.find? key) : d = e := by
  induction d generalizing e with
  | nil =>
    cases e with
    | nil => rfl
    | cons entry rest => simpa [find?] using h entry.1
  | cons entry rest ih =>
    obtain ⟨k, v⟩ := entry
    obtain ⟨below, sorted⟩ := List.pairwise_cons.1 hd
    cases e with
    | nil => simpa [find?] using h k
    | cons entry' rest' =>
      obtain ⟨l, w⟩ := entry'
      obtain ⟨below', sorted'⟩ := List.pairwise_cons.1 he
      have same : k = l := by
        apply String.le_antisymm
        · refine String.not_lt.1 fun lt => ?_
          have absent : find? ((k, v) :: rest) l = none := find?_eq_none_of_lt fun e mem => by
            rcases List.mem_cons.1 mem with rfl | mem
            · exact lt
            · exact String.lt_trans lt (below e mem)
          have found := h l
          rw [absent] at found
          simp [find?] at found
        · refine String.not_lt.1 fun lt => ?_
          have absent : find? ((l, w) :: rest') k = none := find?_eq_none_of_lt fun e mem => by
            rcases List.mem_cons.1 mem with rfl | mem
            · exact lt
            · exact String.lt_trans lt (below' e mem)
          have found := h k
          rw [absent] at found
          simp [find?] at found
      subst same
      have value : v = w := by simpa [find?] using h k
      subst value
      refine congrArg _ (ih sorted sorted' fun key => ?_)
      by_cases hk : k = key
      · subst hk
        rw [find?_eq_none_of_lt below, find?_eq_none_of_lt below']
      · simpa [find?, hk] using h key

end Dict
end ChainIndex
