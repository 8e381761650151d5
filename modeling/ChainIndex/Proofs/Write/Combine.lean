import ChainIndex.Proofs.Items
import ChainIndex.Proofs.Write.Repeat

/-!
Writes to one document made one. They do what they do one after the other, but for one case: nothing is stored,
updates come first and then an upsert, and no later write forgets what was stored. Then the updates count as well, as
if an empty document were stored.
-/
namespace ChainIndex
namespace WriteAction

section Free

/-- The write does not ask for a stored document. -/
def IsFree : WriteAction → Prop
  | update _ => False
  | _ => True

theorem IsFree.combine {first : WriteAction} (hf : first.IsFree) (second : WriteAction) :
    (first.combine second).IsFree := by
  cases first with
  | update ms => exact hf.elim
  | _ => cases second <;> trivial

/-- Two writes made one act as the two in a row. -/
theorem IsFree.apply_combine {first : WriteAction} (hf : first.IsFree) (second : WriteAction)
    (stored : Option Value) : (first.combine second).apply stored = second.apply (first.apply stored) := by
  cases first with
  | update ms => exact hf.elim
  | upsert ms => cases second <;> simp [WriteAction.combine, apply, Mutation.applyAll, List.foldl_append]
  | _ => cases second <;> rfl

/-- Where the first write asks for nothing stored, writes made one have the effect of all in order. -/
theorem IsFree.apply_foldl_combine {first : WriteAction} (hf : first.IsFree) (rest : List WriteAction)
    (stored : Option Value) :
    (rest.foldl WriteAction.combine first).apply stored = applyAll rest (first.apply stored) := by
  induction rest generalizing first with
  | nil => rfl
  | cons second rest ih =>
    rw [List.foldl_cons, ih (hf.combine second), hf.apply_combine]
    rfl

end Free

section Stored

/-- To a stored document, two writes made one do what the two in a row do. -/
theorem apply_combine_some (first second : WriteAction) (doc : Value) :
    (first.combine second).apply (some doc) = second.apply (first.apply (some doc)) := by
  cases first <;> cases second <;>
    simp [WriteAction.combine, apply, Mutation.applyAll, List.foldl_append]

/-- So they have where a document is stored. -/
theorem apply_foldl_combine_some (first : WriteAction) (rest : List WriteAction) (doc : Value) :
    (rest.foldl combine first).apply (some doc) = applyAll rest (first.apply (some doc)) := by
  induction rest generalizing first with
  | nil => rfl
  | cons second rest ih =>
    rw [List.foldl_cons, ih, apply_combine_some]
    rfl

end Stored

section Absent

def isUpdate : WriteAction → Bool
  | update _ => true
  | _ => false

def forgets : WriteAction → Bool
  | overwrite _ => true
  | delete => true
  | _ => false

/-- The first write is an update, the first that is none is an upsert, and none after it forgets what was stored. -/
def countsUpdates (actions : List WriteAction) : Bool :=
  actions.head?.any isUpdate &&
    match actions.dropWhile isUpdate with
    | upsert _ :: later => later.all fun action => !action.forgets
    | _ => false

theorem apply_of_forgets {action : WriteAction} (h : action.forgets = true) (stored other : Option Value) :
    action.apply stored = action.apply other := by
  cases action with
  | overwrite doc => rfl
  | delete => rfl
  | _ => cases h

theorem countsUpdates_update_cons (ms more : List Mutation) (rest : List WriteAction) :
    countsUpdates (update ms :: update more :: rest) = countsUpdates (update (ms ++ more) :: rest) := rfl

theorem applyAll_update_cons (ms more : List Mutation) (rest : List WriteAction) (stored : Option Value) :
    applyAll (update ms :: update more :: rest) stored = applyAll (update (ms ++ more) :: rest) stored := by
  cases stored with
  | none => rfl
  | some doc => simp [applyAll, apply, Mutation.applyAll, List.foldl_append]

/-- An update of what is not stored does nothing, unless an upsert makes it count. -/
theorem apply_foldl_combine_update (ms : List Mutation) (rest : List WriteAction) :
    (rest.foldl combine (update ms)).apply none =
      applyAll (update ms :: rest) (if countsUpdates (update ms :: rest) then some .empty else none) := by
  induction rest generalizing ms with
  | nil => rfl
  | cons second rest ih =>
    cases second with
    | overwrite doc =>
      have hfree : (overwrite doc).IsFree := trivial
      exact hfree.apply_foldl_combine rest none
    | delete =>
      have hfree : delete.IsFree := trivial
      exact hfree.apply_foldl_combine rest none
    | update more =>
      rw [countsUpdates_update_cons, applyAll_update_cons]
      exact ih (ms ++ more)
    | upsert upserted =>
      have hfree : (upsert (ms ++ upserted)).IsFree := trivial
      have hall : countsUpdates (update ms :: upsert upserted :: rest) = rest.all fun action => !action.forgets := rfl
      refine (hfree.apply_foldl_combine rest none).trans ?_
      rw [hall]
      split
      · simp [applyAll, apply, Mutation.applyAll, List.foldl_append]
      · next hsome =>
        -- a later write forgets what the updates would have made
        obtain ⟨action, hmem, hforgets⟩ : ∃ action ∈ rest, action.forgets = true := by simpa using hsome
        exact Steps.foldl_eq_foldl_of_constant hmem (apply_of_forgets hforgets) _ _

/-- Writes made one do what they do one after the other, whatever is stored; only where nothing is stored and an
upsert makes the updates before it count, they do what they do to the empty document. -/
theorem apply_foldl_combine_eq (first : WriteAction) (rest : List WriteAction) (stored : Option Value) :
    (rest.foldl combine first).apply stored =
      if stored = none ∧ countsUpdates (first :: rest) then applyAll (first :: rest) (some .empty)
      else applyAll (first :: rest) stored := by
  cases stored with
  | some doc =>
    rw [if_neg fun h => nomatch h.1]
    exact apply_foldl_combine_some first rest doc
  | none =>
    cases first with
    | update ms =>
      rw [apply_foldl_combine_update]
      split
      · next hcounts => rw [if_pos ⟨rfl, hcounts⟩]
      · next hcounts => rw [if_neg fun h => hcounts h.2]
    | _ =>
      rw [if_neg fun h => nomatch h.2]
      refine IsFree.apply_foldl_combine ?_ rest none
      trivial

/-- Nothing is stored, and the update leaves a field all the same. -/
example : ((update [.set "a" .null]).combine (upsert [])).apply none = some (.obj [("a", .null)]) := rfl

end Absent

section Late

def combineAll : List WriteAction → Option WriteAction
  | [] => none
  | first :: rest => some (rest.foldl combine first)

theorem combineAll_toList (action : Option WriteAction) : combineAll action.toList = action := by
  cases action <;> rfl

/-- The first write that is not an update is an upsert, and at least one update stands before it. -/
def UpsertAfterUpdate (actions : List WriteAction) : Prop :=
  ∃ ms more upserted rest, actions = (ms :: more).map update ++ upsert upserted :: rest

/-- What makes a difference is an upsert behind updates. -/
theorem upsertAfterUpdate_of_countsUpdates {ms : List Mutation} {rest : List WriteAction}
    (h : countsUpdates (update ms :: rest) = true) : UpsertAfterUpdate (update ms :: rest) := by
  induction rest generalizing ms with
  | nil => cases h
  | cons second rest ih =>
    cases second with
    | overwrite doc => cases h
    | delete => cases h
    | upsert upserted => exact ⟨ms, [], upserted, rest, rfl⟩
    | update more =>
      obtain ⟨first, others, upserted, tail, he⟩ : UpsertAfterUpdate (update more :: rest) := ih h
      exact ⟨ms, first :: others, upserted, tail, congrArg (update ms :: ·) he⟩

/-- Writes made one do what they do one after the other, if the document is stored or no upsert comes
late. -/
theorem apply_combineAll {actions : List WriteAction} {stored : Option Value}
    (h : stored = none → ¬UpsertAfterUpdate actions) :
    (match combineAll actions with
      | some action => action.apply stored
      | none => stored) = applyAll actions stored := by
  cases actions with
  | nil => rfl
  | cons first rest =>
    change (rest.foldl combine first).apply stored = applyAll rest (first.apply stored)
    cases stored with
    | some doc => exact apply_foldl_combine_some first rest doc
    | none =>
      cases first with
      | update ms =>
        have hnot : countsUpdates (update ms :: rest) = false :=
          Bool.eq_false_iff.2 fun hcounts => h rfl (upsertAfterUpdate_of_countsUpdates hcounts)
        rw [apply_foldl_combine_update, hnot]
        rfl
      | _ =>
        refine IsFree.apply_foldl_combine ?_ rest none
        trivial

end Late

end WriteAction
end ChainIndex
