import ChainIndex.Proofs.Write.Local

/-!
Merging as an overlay. A patch puts its own values over those of a document and leaves what it does not mention, and a
patch that is merged again changes nothing. The objects of a patch have their keys in order, each of them once, as those
of every document that is read; of the document under it nothing is asked.
-/
namespace ChainIndex
namespace Value

variable {patch target v : Value} {news fields : Dict Value} {keys : List String}

theorem fields?_eq_some_iff : v.fields? = some fields ↔ v = .obj fields := by
  cases v <;> simp [fields?]

section Again

def MergesOnce (patch : Value) : Prop := ∀ target : Value, patch.merge (patch.merge target) = patch.merge target

theorem MergesOnce.merge_self (h : patch.MergesOnce) : patch.merge patch = patch := by
  have hnull : patch.merge .null = patch := merge_onto_plain rfl patch
  have hagain := h .null
  rwa [hnull] at hagain

theorem MergesOnce.overlay_overlay (h : patch.MergesOnce) (old : Option Value) :
    patch.overlay (some (patch.overlay old)) = patch.overlay old := by
  cases old with
  | none => exact h.merge_self
  | some v => exact h v

theorem mergeEntry_mergeEntry {e : String × Value} (h : e.2.MergesOnce) (fields : Dict Value) :
    mergeEntry (mergeEntry fields e) e = mergeEntry fields e := by
  rw [mergeEntry, mergeEntry, Dict.alter, Dict.alter, Dict.find?_insert, if_pos rfl, Dict.insert_insert,
    h.overlay_overlay]

/-- An entry that was merged stays so when one of another key is merged. -/
theorem mergeEntry_of_merged {e other : String × Value} (hne : other.1 ≠ e.1) (h : mergeEntry fields e = fields) :
    mergeEntry (mergeEntry fields other) e = mergeEntry fields other := by
  rw [mergeEntry, Dict.alter] at h
  rw [mergeEntry, mergeEntry, Dict.alter, Dict.alter, Dict.find?_insert, if_neg hne, Dict.insert_comm hne, h]

/-- Entries of one key are the same, and those of different keys go in any order, so each of them is merged for good. -/
theorem mergeFields_mergeFields (hs : news.Sorted) (h : ∀ e ∈ news, e.2.MergesOnce) (fields : Dict Value) :
    mergeFields news (mergeFields news fields) = mergeFields news fields := by
  have kept : ∀ e ∈ news, ∀ other ∈ news, ∀ fields, mergeEntry fields e = fields →
      mergeEntry (mergeEntry fields other) e = mergeEntry fields other := by
    intro e he other ho fields hmerged
    by_cases hk : other.1 = e.1
    · have hfound := hs.find?_of_mem ho
      rw [hk, hs.find?_of_mem he] at hfound
      obtain rfl : e = other := Prod.ext hk.symm (Option.some.inj hfound)
      exact mergeEntry_mergeEntry (h e he) fields
    · exact mergeEntry_of_merged hk hmerged
  simp only [mergeFields_eq_foldl]
  exact Steps.foldl_foldl_of_kept (fun e he => mergeEntry_mergeEntry (h e he)) kept fields

theorem mergeFields_self (hs : news.Sorted) (h : ∀ e ∈ news, e.2.MergesOnce) : mergeFields news news = news := by
  rw [mergeFields_eq_foldl]
  refine Steps.foldl_eq_self fun e he => ?_
  have hfound := hs.find?_of_mem he
  rw [mergeEntry, Dict.alter, hfound]
  exact hs.insert_eq_self (hfound.trans (congrArg some (h e he).merge_self.symm))

/-- By induction into the patch: what is no object in it replaces what it meets, and an object goes entry by entry. -/
theorem Ordered.mergesOnce (hp : patch.Ordered) : patch.MergesOnce := by
  induction patch using induction_fields with
  | plain patch h => exact fun target => by rw [merge_of_plain h, merge_of_plain h]
  | obj news ih =>
    have hnews : ∀ e ∈ news, e.2.MergesOnce := fun e he => ih e he (fieldsOrdered_iff.1 hp.2 e he)
    intro target
    cases ht : target.fields? with
    | some fields =>
      obtain rfl := fields?_eq_some_iff.1 ht
      rw [Value.merge, Value.merge]
      exact congrArg Value.obj (mergeFields_mergeFields hp.1 hnews fields)
    | none =>
      -- the patch has replaced the document, so that it now meets itself
      rw [merge_onto_plain ht, Value.merge]
      exact congrArg Value.obj (mergeFields_self hp.1 hnews)

end Again

/-- Along the keys the patch is an object, up to one that has no entry for the next of them. -/
inductive Lacks : Value → List String → Prop
  | here {news : Dict Value} {key : String} {rest : List String} :
      news.find? key = none → Lacks (.obj news) (key :: rest)
  | inside {news : Dict Value} {key : String} {rest : List String} {w : Value} :
      news.find? key = some w → Lacks w rest → Lacks (.obj news) (key :: rest)

theorem Lacks.at?_eq_none (h : patch.Lacks keys) : patch.at? keys = none := by
  induction h with
  | here hnone => rw [at?_cons, get?_obj, hnone, Option.bind_none]
  | inside hw _ ih => rw [at?_cons, get?_obj, hw, Option.bind_some, ih]

/-- What a patch has at the end of a path, the merged document has there, if it is no object. -/
theorem at?_merge_of_plain (hp : patch.Ordered) (hv : patch.at? keys = some v) (h : v.fields? = none) (target : Value) :
    (patch.merge target).at? keys = some v := by
  induction keys generalizing patch target with
  | nil =>
    obtain rfl := Option.some.inj hv
    exact congrArg some (merge_of_plain h target)
  | cons key rest ih =>
    obtain ⟨w, hw, hrest⟩ := Option.bind_eq_some_iff.1 hv
    cases patch with
    | obj news =>
      rw [get?_obj] at hw
      rw [at?_cons, get?_obj_merge hp.1, hw, Option.map_some, Option.some_or, Option.bind_some]
      cases target.get? key with
      | none => exact hrest
      | some old => exact ih (hp.get? hw) hrest old
    | _ => cases hw

theorem at?_merge_of_lacks (hp : patch.Ordered) (h : patch.Lacks keys) (target : Value) :
    (patch.merge target).at? keys = target.at? keys := by
  induction h generalizing target with
  | here hnone => rw [at?_cons, get?_obj_merge hp.1, hnone, Option.map_none, Option.none_or, at?_cons]
  | @inside news key rest w hw hlacks ih =>
    rw [at?_cons, get?_obj_merge hp.1, hw, Option.map_some, Option.some_or, Option.bind_some, at?_cons]
    cases target.get? key with
    | none => exact hlacks.at?_eq_none
    | some old => exact ih (hp.get? hw) old

/-- Merging lays a patch over a document, and once is enough. Where the patch has a value that is no object the merged
document has that value; where the patch runs out of entries it has what was there before, or nothing if nothing was.
A patch that is no object stands for the whole document, and so does any patch over what is no object. -/
theorem merge_overlay {patch : Value} (hp : patch.Ordered) (target : Value) :
    patch.merge (patch.merge target) = patch.merge target ∧
    (∀ keys v, patch.at? keys = some v → v.fields? = none → (patch.merge target).at? keys = some v) ∧
    (∀ keys, patch.Lacks keys → (patch.merge target).at? keys = target.at? keys) ∧
    (target.fields? = none ∨ patch.fields? = none → patch.merge target = patch) := by
  refine ⟨hp.mergesOnce target, fun keys v hv h => at?_merge_of_plain hp hv h target,
    fun keys h => at?_merge_of_lacks hp h target, fun h => ?_⟩
  rcases h with htarget | hpatch
  · exact merge_onto_plain htarget patch
  · exact merge_of_plain hpatch target

/-- A number over an object and a field beside it, and a patch over a number. -/
theorem merge_overlay_nested :
    let patch : Value := .obj [("a", .obj [("x", .nat 1)]), ("b", .nat 2)]
    let target : Value := .obj [("a", .obj [("x", .obj []), ("y", .nat 3)]), ("c", .null)]
    patch.merge target = .obj [("a", .obj [("x", .nat 1), ("y", .nat 3)]), ("b", .nat 2), ("c", .null)] ∧
      patch.merge (patch.merge target) = patch.merge target ∧
      (patch.merge target).at? ["a", "x"] = some (.nat 1) ∧
      (patch.merge target).at? ["a", "y"] = some (.nat 3) ∧
      patch.merge (.nat 5) = patch := by
  intro patch target
  have hkeys : Dict.Sorted [("a", Value.obj [("x", .nat 1)]), ("b", .nat 2)] := List.pairwise_pair.2 (by decide +kernel)
  have hp : patch.Ordered := ⟨hkeys, ⟨List.pairwise_singleton _ _, trivial, trivial⟩, trivial, trivial⟩
  have hlacks : patch.Lacks ["a", "y"] := .inside rfl (.here rfl)
  obtain ⟨htwice, hplain, hkept, -⟩ := merge_overlay hp target
  obtain ⟨-, -, -, hreplaced⟩ := merge_overlay hp (.nat 5)
  exact ⟨rfl, htwice, hplain _ _ rfl rfl, hkept _ hlacks, hreplaced (.inl rfl)⟩

end Value
end ChainIndex
