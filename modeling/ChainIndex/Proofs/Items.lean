import ChainIndex.Proofs.Dictionary
import ChainIndex.Store.Basic

/-!
What a run of writes makes of one document. Writes to other documents do not count, and a run that
writes each document at most once acts by the one write it has, if any.
-/
namespace ChainIndex

def WriteAction.applyAll (actions : List WriteAction) (stored : Option Value) : Option Value :=
  actions.foldl (fun doc action => action.apply doc) stored

namespace WriteItem

variable (id : String) (stored : Option Value)

/-- The document `id` after the writes. -/
def applyAt (id : String) (items : List WriteItem) (stored : Option Value) : Option Value :=
  items.foldl (fun doc item => if item.id = id then item.action.apply doc else doc) stored

def actionsOf (id : String) (items : List WriteItem) : List WriteAction :=
  (items.filter fun item => item.id = id).map (·.action)

theorem applyAt_eq_applyAll (items : List WriteItem) :
    applyAt id items stored = WriteAction.applyAll (actionsOf id items) stored := by
  induction items generalizing stored with
  | nil => rfl
  | cons item rest ih =>
    refine (ih _).trans ?_
    by_cases h : item.id = id <;> simp [actionsOf, WriteAction.applyAll, h]

@[simp] theorem applyAt_nil : applyAt id [] stored = stored := rfl

@[simp] theorem applyAt_cons (item : WriteItem) (rest : List WriteItem) :
    applyAt id (item :: rest) stored =
      applyAt id rest (if item.id = id then item.action.apply stored else stored) := rfl

theorem applyAt_append (first second : List WriteItem) :
    applyAt id (first ++ second) stored = applyAt id second (applyAt id first stored) := List.foldl_append

theorem applyAt_of_not_mem {id : String} {items : List WriteItem} (h : ∀ item ∈ items, item.id ≠ id) :
    applyAt id items stored = stored := by
  induction items with
  | nil => rfl
  | cons item rest ih =>
    rw [applyAt_cons, if_neg (h item List.mem_cons_self)]
    exact ih fun other ho => h other (List.mem_cons_of_mem _ ho)

/-- Where no key comes twice, the entry of a document is all that happens to it. -/
theorem applyAt_map {α : Type} {d : Dict α} (hd : d.keys.Nodup) (f : String → α → WriteAction) :
    applyAt id (d.map fun e => ⟨e.1, f e.1 e.2⟩) stored =
      match d.find? id with
      | some v => (f id v).apply stored
      | none => stored := by
  induction d generalizing stored with
  | nil => rfl
  | cons e rest ih =>
    obtain ⟨key, v⟩ := e
    obtain ⟨hout, hrest⟩ := List.nodup_cons.1 hd
    rw [List.map_cons, applyAt_cons, ih _ hrest, Dict.find?]
    by_cases hk : key = id
    · subst hk
      have hnone : Dict.find? rest key = none := Dict.find?_eq_none_iff.2 hout
      simp [hnone]
    · simp [hk]

theorem actionsOf_append (first second : List WriteItem) :
    actionsOf id (first ++ second) = actionsOf id first ++ actionsOf id second := by
  simp [actionsOf]

/-- Where no key comes twice and each item is of its key, a document has at most one write. -/
theorem actionsOf_filterMap {α : Type} {d : Dict α} (hd : d.keys.Nodup) {f : String → α → Option WriteItem}
    (hf : ∀ key v item, f key v = some item → item.id = key) :
    actionsOf id (d.filterMap fun e => f e.1 e.2) = (((d.find? id).bind (f id)).map (·.action)).toList := by
  induction d with
  | nil => rfl
  | cons e rest ih =>
    obtain ⟨key, v⟩ := e
    obtain ⟨hout, hrest⟩ := List.nodup_cons.1 hd
    rw [List.filterMap_cons, Dict.find?]
    by_cases hk : key = id
    · subst hk
      have hnone : Dict.find? rest key = none := Dict.find?_eq_none_iff.2 hout
      rw [hnone] at ih
      cases hi : f key v with
      | none => simpa [hi] using ih hrest
      | some item =>
        have hid := hf key v item hi
        simpa [hi, actionsOf, List.filter_cons, hid] using ih hrest
    · rw [if_neg hk]
      cases hi : f key v with
      | none => simpa [hi] using ih hrest
      | some item =>
        have hid := hf key v item hi
        simpa [hi, actionsOf, List.filter_cons, hid, hk] using ih hrest

end WriteItem
end ChainIndex
