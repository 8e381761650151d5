import ChainIndex.Dict.Lemmas

/-!
Entries that come one after the other, look-ups in derived dictionaries, and sums over their values. A
sum changes by one value when a key is entered or taken away, which is all that ledgers need of it.
-/
namespace ChainIndex
namespace Dict

variable {α β : Type}

theorem insert_insert (d : Dict α) (key : String) (v w : α) :
    (d.insert key v).insert key w = d.insert key w := by
  induction d with
  | nil => simp [insert]
  | cons e rest ih =>
    obtain ⟨k, x⟩ := e
    by_cases hk : k = key
    · simp [insert, hk]
    · by_cases hlt : key < k
      · simp [insert, hk, hlt]
      · simp [insert, hk, hlt, ih]

/-- Entries of different keys go in any order, whatever the order of the list is. -/
theorem insert_comm_of_lt {key other : String} (h : key < other) (d : Dict α) (v w : α) :
    (d.insert key v).insert other w = (d.insert other w).insert key v := by
  have hne : key ≠ other := fun he => String.lt_irrefl other (he ▸ h)
  have hnot : ¬other < key := fun hlt => String.lt_irrefl key (String.lt_trans h hlt)
  induction d with
  | nil => simp [insert, h, hne, hne.symm, hnot]
  | cons e rest ih =>
    obtain ⟨k, x⟩ := e
    by_cases hk : k = key
    · subst hk
      simp [insert, hne, hnot]
    · by_cases ho : k = other
      · subst ho
        simp [insert, hne.symm, h, hne, hnot]
      · by_cases hlt : other < k
        · simp [insert, hk, ho, hlt, String.lt_trans h hlt, h, hne, hne.symm, hnot]
        · by_cases hlt' : key < k
          · simp [insert, hk, ho, hlt, hlt', hne, hnot]
          · simp [insert, hk, ho, hlt, hlt', ih]

theorem insert_comm {key other : String} (h : key ≠ other) (d : Dict α) (v w : α) :
    (d.insert key v).insert other w = (d.insert other w).insert key v := by
  by_cases hlt : key < other
  · exact insert_comm_of_lt hlt d v w
  · exact (insert_comm_of_lt (Std.lt_of_le_of_ne (String.not_lt.1 hlt) h.symm) d w v).symm

theorem find?_cons_self (k : String) (v : α) (rest : Dict α) : find? ((k, v) :: rest) k = some v := if_pos rfl

theorem find?_cons_of_ne {k key : String} (h : k ≠ key) (v : α) (rest : Dict α) :
    find? ((k, v) :: rest) key = rest.find? key := if_neg h

theorem find?_append (d e : Dict α) (key : String) :
    find? (d ++ e) key = (d.find? key).or (e.find? key) := by
  induction d with
  | nil => rfl
  | cons entry rest ih =>
    obtain ⟨k, v⟩ := entry
    by_cases hk : k = key
    · simp [find?, hk]
    · simpa [find?, hk] using ih

theorem keys_append (d e : Dict α) : keys (d ++ e) = keys d ++ keys e := List.map_append

theorem mem_of_find? {d : Dict α} {key : String} {value : α} (h : d.find? key = some value) :
    (key, value) ∈ d := by
  induction d with
  | nil => simp at h
  | cons entry rest ih =>
    obtain ⟨k, v⟩ := entry
    by_cases hk : k = key
    · simp only [find?, hk, ↓reduceIte, Option.some.injEq] at h
      simp [hk, h]
    · simp only [find?, hk, ↓reduceIte] at h
      exact List.mem_cons_of_mem _ (ih h)

theorem find?_eq_none_iff {d : Dict α} {key : String} : d.find? key = none ↔ key ∉ d.keys := by
  induction d with
  | nil => simp [keys]
  | cons entry rest ih =>
    obtain ⟨k, v⟩ := entry
    by_cases hk : k = key
    · simp [find?, keys, hk]
    · simpa [find?, keys, hk, Ne.symm hk] using ih

theorem find?_reverse_eq_none {d : Dict α} {names : List String} (h : d.keys ⊆ names) {key : String}
    (hk : key ∉ names) : find? d.reverse key = none := by
  rw [find?_eq_none_iff, keys, List.map_reverse, List.mem_reverse]
  exact fun hm => hk (h hm)

/-- Where keys are in order, an entry is found by its key. -/
theorem Sorted.find?_of_mem {d : Dict α} (h : d.Sorted) {key : String} {value : α}
    (hm : (key, value) ∈ d) : d.find? key = some value := by
  induction d with
  | nil => cases hm
  | cons entry rest ih =>
    obtain ⟨k, v⟩ := entry
    obtain ⟨below, sorted⟩ := List.pairwise_cons.1 h
    rcases List.mem_cons.1 hm with he | hm
    · cases he
      simp [find?]
    · have different : k ≠ key := fun same => String.lt_irrefl k (by
        have := below _ hm
        rwa [← same] at this)
      simpa [find?, different] using ih sorted hm

theorem find?_of_mem {d : Dict α} (h : d.keys.Nodup) {key : String} {value : α} (hm : (key, value) ∈ d) :
    d.find? key = some value := by
  induction d with
  | nil => cases hm
  | cons entry rest ih =>
    obtain ⟨k, v⟩ := entry
    obtain ⟨hout, hrest⟩ := List.nodup_cons.1 h
    rcases List.mem_cons.1 hm with he | hm
    · cases he
      simp [find?]
    · have different : k ≠ key := fun same => hout (same ▸ List.mem_map.2 ⟨_, hm, rfl⟩)
      simpa [find?, different] using ih hrest hm

/-- The order of entries does not matter to look-ups, where no key comes twice. -/
theorem find?_perm {d e : Dict α} (h : d.Perm e) (hn : e.keys.Nodup) (key : String) :
    d.find? key = e.find? key := by
  have hd : d.keys.Nodup := (h.map Prod.fst).nodup_iff.2 hn
  cases he : e.find? key with
  | none =>
    rw [find?_eq_none_iff] at he ⊢
    exact fun hm => he ((h.map Prod.fst).mem_iff.1 hm)
  | some value => exact find?_of_mem hd (h.mem_iff.2 (mem_of_find? he))

theorem has_iff {d : Dict α} {key : String} : d.has key = true ↔ key ∈ d.keys := by
  rw [has, Option.isSome_iff_ne_none, Ne, find?_eq_none_iff, Classical.not_not]

theorem find?_extend (d more : Dict α) (key : String) :
    (d.extend more).find? key = (find? more.reverse key).or (d.find? key) := by
  induction more generalizing d with
  | nil => rfl
  | cons entry rest ih =>
    obtain ⟨k, v⟩ := entry
    change ((d.insert k v).extend rest).find? key = _
    rw [ih, find?_insert, List.reverse_cons, find?_append]
    by_cases hk : k = key
    · cases h : find? rest.reverse key <;> simp [find?, hk]
    · cases h : find? rest.reverse key <;> simp [find?, hk]

theorem find?_ofList (entries : List (String × α)) (key : String) :
    (ofList entries).find? key = find? entries.reverse key := by
  change (extend [] entries).find? key = _
  rw [find?_extend, find?_nil, Option.or_none]

theorem find?_reverse {d : Dict α} (h : d.Sorted) (key : String) :
    find? d.reverse key = d.find? key := by
  cases hf : d.find? key with
  | none =>
    rw [find?_eq_none_iff] at hf ⊢
    simpa [keys] using hf
  | some value =>
    have hm : (key, value) ∈ d.reverse := List.mem_reverse.2 (mem_of_find? hf)
    cases hr : find? d.reverse key with
    | none =>
      rw [find?_eq_none_iff] at hr
      exact absurd (List.mem_map.2 ⟨_, hm, rfl⟩) hr
    | some other =>
      have ho := h.find?_of_mem (List.mem_reverse.1 (mem_of_find? hr))
      rw [← ho, hf]

theorem Sorted.ofList_eq_self {d : Dict α} (h : d.Sorted) : ofList d = d :=
  (sorted_ofList d).ext h fun key => by rw [find?_ofList, find?_reverse h]

theorem find?_map (d : Dict α) (f : String → α → β) (key : String) :
    find? (d.map fun e => (e.1, f e.1 e.2)) key = (d.find? key).map (f key) := by
  induction d with
  | nil => rfl
  | cons entry rest ih =>
    obtain ⟨k, v⟩ := entry
    by_cases hk : k = key
    · simp [find?, hk]
    · simpa [find?, hk] using ih

theorem keys_map (d : Dict α) (f : String → α → β) : keys (d.map fun e => (e.1, f e.1 e.2)) = d.keys := by
  simp [keys]

theorem find?_filter (d : Dict α) (p : String → Bool) (key : String) :
    find? (d.filter fun e => p e.1) key = if p key then d.find? key else none := by
  induction d with
  | nil => simp
  | cons entry rest ih =>
    obtain ⟨k, v⟩ := entry
    by_cases hk : k = key
    · subst hk
      cases hp : p k
      · simpa [hp] using ih
      · simp [hp, find?]
    · cases hp : p k <;> simp [hp, find?, hk, ih]

/-- A dictionary of what some keys have. -/
theorem find?_filterMap_keys (names : List String) (f : String → Option α) (key : String) :
    find? (names.filterMap fun name => (f name).map (name, ·)) key = if key ∈ names then f key else none := by
  induction names with
  | nil => rfl
  | cons name rest ih =>
    rw [List.filterMap_cons]
    by_cases hk : name = key
    · subst hk
      cases hf : f name with
      | none => simp [hf, ih]
      | some value => simp [find?]
    · cases hf : f name with
      | none => simp [ih, Ne.symm hk]
      | some value => simp [ih, find?, hk, Ne.symm hk]

theorem keys_filterMap_subset (d : Dict α) (f : α → Option β) :
    keys (d.filterMap fun e => (f e.2).map (e.1, ·)) ⊆ d.keys := by
  intro key hk
  obtain ⟨e, he, rfl⟩ := List.mem_map.1 hk
  obtain ⟨entry, hm, hentry⟩ := List.mem_filterMap.1 he
  obtain ⟨_, -, rfl⟩ := Option.map_eq_some_iff.1 hentry
  exact List.mem_map.2 ⟨entry, hm, rfl⟩

theorem nodup_keys_filterMap {d : Dict α} (h : d.keys.Nodup) (f : α → Option β) :
    (keys (d.filterMap fun e => (f e.2).map (e.1, ·))).Nodup := by
  induction d with
  | nil => exact List.nodup_nil
  | cons e rest ih =>
    obtain ⟨hout, hrest⟩ := List.nodup_cons.1 h
    rw [List.filterMap_cons]
    cases hf : f e.2 with
    | none => exact ih hrest
    | some value => exact List.nodup_cons.2 ⟨fun hm => hout (keys_filterMap_subset rest f hm), ih hrest⟩

/-- Entries may be dropped or changed by their values, where no key comes twice. -/
theorem find?_filterMap {d : Dict α} (h : d.keys.Nodup) (f : α → Option β) (key : String) :
    find? (d.filterMap fun e => (f e.2).map (e.1, ·)) key = (d.find? key).bind f := by
  induction d with
  | nil => rfl
  | cons e rest ih =>
    obtain ⟨k, v⟩ := e
    obtain ⟨hout, hrest⟩ := List.nodup_cons.1 h
    rw [List.filterMap_cons]
    by_cases hk : k = key
    · subst hk
      have hnone : find? rest k = none := find?_eq_none_iff.2 hout
      cases hf : f v with
      | none => simp [hf, ih hrest, hnone, find?]
      | some value => simp [hf, find?]
    · cases hf : f v with
      | none => simp [ih hrest, find?, hk]
      | some value => simp [ih hrest, find?, hk]

theorem Sorted.find?_filter_value {d : Dict α} (h : d.Sorted) (p : α → Bool) (key : String) :
    find? (d.filter fun e => p e.2) key = (d.find? key).filter p := by
  cases hf : d.find? key with
  | none =>
    rw [find?_eq_none_iff] at hf
    refine find?_eq_none_iff.2 fun hm => hf ?_
    obtain ⟨e, he, rfl⟩ := List.mem_map.1 hm
    exact List.mem_map.2 ⟨e, (List.mem_filter.1 he).1, rfl⟩
  | some value =>
    have hs : Sorted (d.filter fun e => p e.2) := List.Pairwise.filter _ h
    cases hp : p value with
    | true =>
      rw [Option.filter_some, hp, if_pos rfl]
      exact hs.find?_of_mem (List.mem_filter.2 ⟨mem_of_find? hf, hp⟩)
    | false =>
      rw [Option.filter_some, hp, if_neg Bool.false_ne_true]
      refine find?_eq_none_iff.2 fun hm => ?_
      obtain ⟨⟨k, other⟩, he, rfl⟩ := List.mem_map.1 hm
      obtain ⟨hmem, hother⟩ := List.mem_filter.1 he
      have := (h.find?_of_mem hmem).symm.trans hf
      simp_all

theorem find?_alter (d : Dict α) (key other : String) (f : Option α → α) :
    (d.alter key f).find? other = if key = other then some (f (d.find? key)) else d.find? other :=
  find?_insert d key other _

/-- A key that is there keeps its value. -/
theorem find?_insertIfAbsent (d : Dict α) (key other : String) (value : α) :
    (d.insertIfAbsent key value).find? other =
      (d.find? other).or (if key = other then some value else none) := by
  unfold insertIfAbsent has
  split
  · next h =>
    obtain ⟨old, ho⟩ := Option.isSome_iff_exists.1 h
    by_cases hk : key = other
    · subst hk
      simp [ho]
    · cases d.find? other <;> simp [hk]
  · next h =>
    have hn : d.find? key = none := by simpa using h
    rw [find?_insert]
    by_cases hk : key = other
    · subst hk
      simp [hn]
    · cases d.find? other <;> simp [hk]

theorem Sorted.insertIfAbsent {d : Dict α} (h : d.Sorted) (key : String) (value : α) :
    (d.insertIfAbsent key value).Sorted := by
  unfold Dict.insertIfAbsent
  split
  · exact h
  · exact h.insert key value

theorem Sorted.alter {d : Dict α} (h : d.Sorted) (key : String) (f : Option α → α) :
    (d.alter key f).Sorted := h.insert key _

theorem Sorted.nodup_keys {d : Dict α} (h : d.Sorted) : d.keys.Nodup := by
  refine List.pairwise_map.2 (List.Pairwise.imp ?_ h)
  intro a b lt same
  rw [same] at lt
  exact String.lt_irrefl _ lt

theorem Sorted.map {d : Dict α} (h : d.Sorted) (f : String → α → β) :
    Sorted (d.map fun e => (e.1, f e.1 e.2)) :=
  List.pairwise_map.2 h

theorem Sorted.filter {d : Dict α} (h : d.Sorted) (p : String × α → Bool) : Sorted (d.filter p) :=
  List.Pairwise.filter _ h

theorem Sorted.eq_nil_or_singleton {d : Dict α} (h : d.Sorted) {e : String × α} (hone : ∀ x ∈ d, x = e) :
    d = [] ∨ d = [e] := by
  cases d with
  | nil => exact .inl rfl
  | cons first rest =>
    obtain ⟨rfl, hrest⟩ := List.forall_mem_cons.1 hone
    cases rest with
    | nil => exact .inr rfl
    | cons second rest =>
      have hlt := (List.pairwise_cons.1 h).1 second List.mem_cons_self
      rw [hrest second List.mem_cons_self] at hlt
      exact absurd hlt (String.lt_irrefl first.1)

theorem isEmpty_iff {d : Dict α} : d.isEmpty = true ↔ ∀ key, d.find? key = none := by
  cases d with
  | nil => simp
  | cons entry rest =>
    simp only [List.isEmpty_cons, Bool.false_eq_true, false_iff, Classical.not_forall]
    exact ⟨entry.1, by simp [find?]⟩

theorem isEmpty_insert (d : Dict α) (key : String) (value : α) : (d.insert key value).isEmpty = false := by
  cases h : (d.insert key value).isEmpty with
  | false => rfl
  | true => simpa [find?_insert] using isEmpty_iff.1 h key

theorem isEmpty_of_extend {d more : Dict α} (h : (d.extend more).isEmpty = true) : d.isEmpty = true := by
  refine isEmpty_iff.2 fun key => ?_
  have := isEmpty_iff.1 h key
  rw [find?_extend, Option.or_eq_none_iff] at this
  exact this.2

def sumOf (f : α → Nat) : Dict α → Nat
  | [] => 0
  | (_, v) :: rest => f v + sumOf f rest

theorem sumOf_insert (f : α → Nat) {d : Dict α} {key : String} (h : d.find? key = none) (value : α) :
    sumOf f (d.insert key value) = f value + sumOf f d := by
  induction d with
  | nil => simp [insert, sumOf]
  | cons entry rest ih =>
    obtain ⟨k, v⟩ := entry
    have hk : k ≠ key := by
      intro he
      simp [find?, he] at h
    simp only [find?, hk, ↓reduceIte] at h
    simp only [insert, hk, ↓reduceIte]
    split
    · rfl
    · have := ih h
      simp only [sumOf]
      omega

theorem erase_eq_self {d : Dict α} {key : String} (h : d.find? key = none) : d.erase key = d := by
  rw [find?_eq_none_iff] at h
  refine List.filter_eq_self.2 fun e he => ?_
  have : e.1 ≠ key := fun same => h (same ▸ List.mem_map.2 ⟨e, he, rfl⟩)
  simpa using this

theorem Sorted.tail_find? {d : Dict α} {key : String} {value : α} (h : Sorted ((key, value) :: d)) :
    find? d key = none :=
  find?_eq_none_of_lt (List.pairwise_cons.1 h).1

/-- An entry that goes takes its share from the sum. -/
theorem Sorted.sumOf_erase (f : α → Nat) {d : Dict α} (hd : d.Sorted) {key : String} {value : α}
    (h : d.find? key = some value) : sumOf f (d.erase key) + f value = sumOf f d := by
  induction d with
  | nil => simp at h
  | cons entry rest ih =>
    obtain ⟨k, v⟩ := entry
    by_cases hk : k = key
    · subst hk
      simp only [find?, ↓reduceIte, Option.some.injEq] at h
      subst h
      have hrest : Dict.erase ((k, v) :: rest) k = rest := by
        rw [← erase_eq_self hd.tail_find?]
        simp [Dict.erase]
      rw [hrest, sumOf]
      omega
    · simp only [find?, hk, ↓reduceIte] at h
      have hcons : Dict.erase ((k, v) :: rest) key = (k, v) :: Dict.erase rest key := by simp [Dict.erase, hk]
      have := ih (List.pairwise_cons.1 hd).2 h
      rw [hcons, sumOf, sumOf]
      omega

/-- Entering all of `more` replaces what the keys of `more` held. -/
theorem Sorted.sumOf_extend (f : α → Nat) {d more : Dict α} (hd : d.Sorted) (hm : more.Sorted) :
    sumOf f (d.extend more) = sumOf f more + sumOf f (d.filter fun e => !more.has e.1) := by
  induction more generalizing d with
  | nil =>
    have hall : List.filter (fun e => !has ([] : Dict α) e.1) d = d :=
      List.filter_eq_self.2 fun _ _ => rfl
    rw [hall, sumOf, Nat.zero_add]
    rfl
  | cons entry rest ih =>
    obtain ⟨k, v⟩ := entry
    have hk : find? rest k = none := hm.tail_find?
    have hsplit : List.filter (fun e => !has rest e.1) (d.insert k v) =
        Dict.insert (d.filter fun e => !has ((k, v) :: rest) e.1) k v := by
      refine Sorted.ext ((hd.insert k v).filter _) ((hd.filter _).insert k v) fun key => ?_
      rw [find?_filter _ fun key => !has rest key, find?_insert, find?_insert,
        find?_filter _ fun key => !has ((k, v) :: rest) key]
      by_cases he : k = key
      · subst he
        simp [has, hk]
      · simp [has, find?, he]
    have hfree : find? (d.filter fun e => !has ((k, v) :: rest) e.1) k = none := by
      rw [find?_filter _ fun key => !has ((k, v) :: rest) key]
      simp [has, find?]
    change sumOf f ((d.insert k v).extend rest) = _
    rw [ih (hd.insert k v) (List.pairwise_cons.1 hm).2, hsplit, sumOf_insert f hfree, sumOf]
    omega

end Dict
end ChainIndex
