import ChainIndex.Proofs.Text.Utf8
import ChainIndex.Write.Bulk
import Mathlib.Data.List.Chain

/-!
How writes are cut into requests. Together the requests are the writes in order. None is empty, each
keeps to the limit unless it is one write alone, and none leaves out a write that would have fitted.
-/
namespace ChainIndex
namespace Bulk

theorem flatten_chunks_push (b : Bulk) (item : WriteItem) :
    (b.push item).chunks.flatten = b.chunks.flatten ++ [item] := by
  unfold push chunks
  cases hf : b.filling with
  | nil => simp
  | cons first rest =>
    by_cases hsize : b.size + item.size ≤ b.limit
    · simp [hsize]
    · simp [hsize]

theorem flatten_chunks_foldl (items : List WriteItem) (b : Bulk) :
    (items.foldl push b).chunks.flatten = b.chunks.flatten ++ items := by
  induction items generalizing b with
  | nil => simp
  | cons item rest ih =>
    rw [List.foldl_cons, ih, flatten_chunks_push, List.append_assoc, List.singleton_append]

/-- Requests hold all writes in order, whatever their limit. -/
theorem flatten_chunks_ofList (limit : Nat) (items : List WriteItem) :
    (ofList limit items).chunks.flatten = items :=
  flatten_chunks_foldl items { limit }

theorem length_ofList (limit : Nat) (items : List WriteItem) : (ofList limit items).length = items.length :=
  congrArg List.length (flatten_chunks_ofList limit items)

def octets : List WriteItem → Nat
  | [] => 0
  | item :: rest => item.size + octets rest

/-- The octets of a request are those of the compact texts of its writes, in UTF-8. -/
theorem octets_eq_length (items : List WriteItem) :
    octets items = (items.flatMap fun item => Utf8.encode item.toJson.text).length := by
  induction items with
  | nil => rfl
  | cons item rest ih => rw [octets, ih, List.flatMap_cons, List.length_append, Utf8.length_encode, WriteItem.size]

theorem octets_concat (items : List WriteItem) (item : WriteItem) :
    octets (items ++ [item]) = octets items + item.size := by
  induction items with
  | nil => simp [octets]
  | cons first rest ih =>
    rw [List.cons_append, octets, ih, octets]
    omega

def Full (limit : Nat) (chunk next : List WriteItem) : Prop :=
  ∃ item ∈ next.head?, limit < octets chunk + item.size

structure Packed (limit : Nat) (chunks : List (List WriteItem)) : Prop where
  nonempty : ∀ chunk ∈ chunks, chunk ≠ []
  bounded : ∀ chunk ∈ chunks, octets chunk ≤ limit ∨ ∃ item, chunk = [item]
  full : chunks.IsChain (Full limit)

namespace Packed

variable {limit : Nat} {chunks : List (List WriteItem)} {last : List WriteItem} {item : WriteItem}

theorem nil (limit : Nat) : Packed limit [] := ⟨nofun, nofun, .nil⟩

/-- A write that fits goes into the last request. -/
theorem fill (h : Packed limit (chunks ++ [last])) (hfits : octets last + item.size ≤ limit) :
    Packed limit (chunks ++ [last ++ [item]]) := by
  refine ⟨fun chunk hm => ?_, fun chunk hm => ?_, ?_⟩
  · rcases List.mem_append.1 hm with hm | hm
    · exact h.nonempty chunk (List.mem_append_left _ hm)
    · rw [List.mem_singleton.1 hm]
      simp
  · rcases List.mem_append.1 hm with hm | hm
    · exact h.bounded chunk (List.mem_append_left _ hm)
    · rw [List.mem_singleton.1 hm, octets_concat]
      exact .inl hfits
  · obtain ⟨hchunks, -, hnext⟩ := List.isChain_append.1 h.full
    refine List.isChain_append.2 ⟨hchunks, .singleton _, fun chunk hc next hn => ?_⟩
    obtain ⟨first, hfirst, hsize⟩ := hnext chunk hc last rfl
    obtain rfl := Option.some.inj hn
    exact ⟨first, by simp [List.head?_append, Option.mem_def.1 hfirst], hsize⟩

/-- A write that does not fit begins a request. -/
theorem begin (h : Packed limit chunks) (hfull : ∀ chunk ∈ chunks.getLast?, limit < octets chunk + item.size) :
    Packed limit (chunks ++ [[item]]) := by
  refine ⟨fun chunk hm => ?_, fun chunk hm => ?_, ?_⟩
  · rcases List.mem_append.1 hm with hm | hm
    · exact h.nonempty chunk hm
    · rw [List.mem_singleton.1 hm]
      simp
  · rcases List.mem_append.1 hm with hm | hm
    · exact h.bounded chunk hm
    · exact .inr ⟨item, List.mem_singleton.1 hm⟩
  · refine List.isChain_append.2 ⟨h.full, .singleton _, fun chunk hc next hn => ?_⟩
    obtain rfl := Option.some.inj hn
    exact ⟨item, rfl, hfull chunk hc⟩

end Packed

/-- The size counted so far is that of the request being filled, which is empty only at the start. -/
structure Counted (b : Bulk) : Prop where
  size : b.size = octets b.filling
  started : b.filling = [] → b.finished = []
  packed : Packed b.limit b.chunks

/-- One write more fits into the last request, or begins the next. -/
theorem Counted.push {b : Bulk} (h : b.Counted) (item : WriteItem) : (b.push item).Counted := by
  have hone : octets [item] = item.size := by simp [octets]
  unfold Bulk.push
  cases hf : b.filling with
  | nil =>
    refine ⟨hone.symm, nofun, ?_⟩
    have hfirst : Packed b.limit ([] ++ [[item]]) := (Packed.nil b.limit).begin nofun
    simpa [chunks, h.started hf] using hfirst
  | cons first rest =>
    have hchunks : b.chunks = b.finished ++ [b.filling] := by simp [chunks, hf]
    have hpacked := hchunks ▸ h.packed
    have hsize := h.size
    rw [hf] at hpacked hsize
    simp only [List.isEmpty_cons, Bool.false_eq_true, ↓reduceIte]
    split
    · next hfits =>
      refine ⟨by rw [octets_concat, hsize], nofun, ?_⟩
      rw [hsize] at hfits
      simpa [chunks] using hpacked.fill hfits
    · next hfull =>
      refine ⟨hone.symm, nofun, ?_⟩
      rw [hsize] at hfull
      have hnext : ∀ chunk ∈ (b.finished ++ [first :: rest]).getLast?, b.limit < octets chunk + item.size := by
        intro chunk hc
        obtain rfl : first :: rest = chunk := by simpa using hc
        exact Nat.not_le.1 hfull
      simpa [chunks] using hpacked.begin hnext

theorem counted_ofList (limit : Nat) (items : List WriteItem) : (ofList limit items).Counted :=
  List.foldlRecOn _ _ ⟨rfl, fun _ => rfl, .nil limit⟩ fun _ hb item _ => hb.push item

theorem limit_ofList (limit : Nat) (items : List WriteItem) : (ofList limit items).limit = limit := by
  refine List.foldlRecOn (motive := fun b : Bulk => b.limit = limit) _ _ rfl fun b hb item _ => ?_
  unfold push
  split
  · exact hb
  · split <;> exact hb

/-- The requests are the writes in order, as full as the limit allows. -/
theorem chunks_ofList (limit : Nat) (items : List WriteItem) :
    (ofList limit items).chunks.flatten = items ∧
      (∀ chunk ∈ (ofList limit items).chunks, chunk ≠ []) ∧
      (∀ chunk ∈ (ofList limit items).chunks, octets chunk ≤ limit ∨ ∃ item, chunk = [item]) ∧
      ((ofList limit items).chunks.IsChain fun chunk next =>
        ∃ item ∈ next.head?, limit < octets chunk + item.size) ∧
      (ofList limit items).length = items.length ∧
      ((ofList limit items).isEmpty = true ↔ (ofList limit items).length = 0) := by
  have hflatten := flatten_chunks_ofList limit items
  have hpacked := (counted_ofList limit items).packed
  rw [limit_ofList] at hpacked
  refine ⟨hflatten, hpacked.nonempty, hpacked.bounded, hpacked.full, length_ofList limit items, ?_⟩
  rw [isEmpty, List.isEmpty_iff, length, List.length_eq_zero_iff, List.flatten_eq_nil_iff]
  constructor
  · intro hnone
    simp [hnone]
  · intro hempty
    refine List.eq_nil_iff_forall_not_mem.2 fun chunk hm => ?_
    exact hpacked.nonempty chunk hm (hempty chunk hm)

end Bulk
end ChainIndex
