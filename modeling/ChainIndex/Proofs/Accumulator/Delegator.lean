import ChainIndex.Accumulator.Delegator
import ChainIndex.Proofs.Write.Paths

/-!
The changes of delegators. A withdrawal drops funds, and changes made again put a fund back only to drop
it once more, as long as no fund is un-delegated after it was withdrawn.
-/
namespace ChainIndex

namespace Value

theorem isAmong_strings {v : Value} {texts : List String} :
    v.isAmong (texts.map .str) = true ↔ ∃ text ∈ texts, v = .str text := by
  simp only [isAmong, List.any_map, List.any_eq_true, Function.comp_apply]
  constructor
  · rintro ⟨text, ht, hsame⟩
    refine ⟨text, ht, ?_⟩
    cases v <;> simp [same] at hsame
    rw [hsame]
  · rintro ⟨text, ht, rfl⟩
    exact ⟨text, ht, same_refl _⟩

theorem find?_of_sameFields {fields others : Dict Value} (h : sameFields fields others = true) {key text : String}
    (hf : fields.find? key = some (.str text)) : others.find? key = some (.str text) := by
  induction fields generalizing others with
  | nil => cases hf
  | cons e rest ih =>
    obtain ⟨k, v⟩ := e
    cases others with
    | nil => simp [sameFields] at h
    | cons e' rest' =>
      obtain ⟨k', w⟩ := e'
      simp only [sameFields, Bool.and_eq_true, beq_iff_eq] at h
      obtain ⟨⟨rfl, hvw⟩, hrest⟩ := h
      rw [Dict.find?] at hf ⊢
      split
      · next hk =>
        rw [if_pos hk] at hf
        obtain rfl := Option.some.inj hf
        exact congrArg some (same_str_left.1 hvw)
      · next hk =>
        rw [if_neg hk] at hf
        exact ih hrest hf

/-- Equal documents have the same texts. -/
theorem get?_of_same {v w : Value} (h : v.same w = true) {key text : String}
    (hv : v.get? key = some (.str text)) : w.get? key = some (.str text) := by
  cases v with
  | obj fields =>
    cases w with
    | obj others =>
      rw [same] at h
      exact find?_of_sameFields h hv
    | _ => simp [same] at h
  | _ => cases hv

end Value

namespace UnDelegateInfo

def toItem (u : UnDelegateInfo) : Value :=
  .record [("id", .str u.id), ("value", .str u.value), ("valueNum", .double u.valueNum),
    ("timestamp", .nat u.timestamp)]

theorem get?_toItem (u : UnDelegateInfo) : u.toItem.get? "id" = some (.str u.id) := by
  rw [toItem, Value.get?_record]
  simp [Dict.find?]

theorem ordered_toItem (u : UnDelegateInfo) : u.toItem.Ordered :=
  (Value.isDocument_record (by simp)).ordered

end UnDelegateInfo

namespace StakeChange

def without (ids : List String) (item : Value) : Bool :=
  match item.get? "id" with
  | some w => !w.isAmong (ids.map .str)
  | none => true

theorem without_eq_false_iff {ids : List String} {item : Value} :
    without ids item = false ↔ ∃ id ∈ ids, item.get? "id" = some (.str id) := by
  unfold without
  cases item.get? "id" with
  | none => simp
  | some w =>
    simp only [Bool.not_eq_false', Value.isAmong_strings, Option.some.injEq]

theorem without_toItem {ids : List String} (u : UnDelegateInfo) : without ids u.toItem = true ↔ u.id ∉ ids := by
  rw [← Bool.not_eq_false, without_eq_false_iff, u.get?_toItem]
  simp

theorem without_mono {ids more : List String} (h : ids ⊆ more) {item : Value} (hi : without more item = true) :
    without ids item = true := by
  rw [← Bool.not_eq_false, without_eq_false_iff] at hi ⊢
  rintro ⟨id, hid, he⟩
  exact hi ⟨id, h hid, he⟩

def onFunds (c : StakeChange) (items : List Value) : List Value :=
  ((c.unDelegated.toList.map UnDelegateInfo.toItem).foldl Value.addItem items).filter (without c.withdrawnFunds)

def keptFund (ids : List String) (c : StakeChange) : List Value :=
  (c.unDelegated.toList.map UnDelegateInfo.toItem).filter (without ids)

/-- An item is added to a selection of the items as it is added to all. -/
theorem filter_addItem {p : Value → Bool} {w : Value} (hw : ∀ x : Value, w.same x = true → p x = p w)
    (items : List Value) :
    (Value.addItem items w).filter p = if p w then Value.addItem (items.filter p) w else items.filter p := by
  have hamong : p w = true → w.isAmong (items.filter p) = w.isAmong items := by
    intro hp
    refine Bool.eq_iff_iff.2 ?_
    simp only [Value.isAmong, List.any_eq_true, List.mem_filter]
    constructor
    · rintro ⟨x, ⟨hx, -⟩, hs⟩
      exact ⟨x, hx, hs⟩
    · rintro ⟨x, hx, hs⟩
      exact ⟨x, ⟨hx, by rw [hw x hs, hp]⟩, hs⟩
  unfold Value.addItem
  cases hp : p w with
  | true =>
    rw [hamong hp]
    cases w.isAmong items <;> simp [List.filter_append, hp]
  | false => cases w.isAmong items <;> simp [List.filter_append, hp]

/-- Of a change of the funds, the items without the ids see what it adds of such. -/
theorem filter_onFunds {ids : List String} (c : StakeChange) (h : c.withdrawnFunds ⊆ ids) (items : List Value) :
    (c.onFunds items).filter (without ids) = (c.keptFund ids).foldl Value.addItem (items.filter (without ids)) := by
  have hdrop (found : List Value) :
      (found.filter (without c.withdrawnFunds)).filter (without ids) = found.filter (without ids) := by
    rw [List.filter_filter]
    refine List.filter_congr fun item _ => ?_
    cases hi : without ids item with
    | false => rfl
    | true => rw [without_mono h hi]; rfl
  rw [onFunds, hdrop, keptFund]
  cases c.unDelegated with
  | none => rfl
  | some u =>
    have hsame (x : Value) (hs : u.toItem.same x = true) : without ids x = without ids u.toItem := by
      unfold without
      rw [Value.get?_of_same hs u.get?_toItem, u.get?_toItem]
    simp only [Option.toList_some, List.map_cons, List.map_nil, List.foldl_cons, List.foldl_nil]
    rw [filter_addItem hsame]
    cases hw : without ids u.toItem <;> simp [hw]

def InOrder (cs : List StakeChange) : Prop :=
  cs.Pairwise fun earlier later => ∀ u, later.unDelegated = some u → u.id ∉ earlier.withdrawnFunds

variable {cs : List StakeChange}

/-- Withdrawn funds are gone in the end. -/
theorem without_of_mem_foldl (h : InOrder cs) {c : StakeChange} (hc : c ∈ cs) (items : List Value) :
    ∀ item ∈ cs.foldl (fun items c => c.onFunds items) items, without c.withdrawnFunds item = true := by
  induction cs generalizing items with
  | nil => cases hc
  | cons first rest ih =>
    obtain ⟨hfirst, hrest⟩ := List.pairwise_cons.1 h
    rcases List.mem_cons.1 hc with rfl | hc
    · rw [List.foldl_cons]
      have hnow : ∀ item ∈ c.onFunds items, without c.withdrawnFunds item = true :=
        fun item hi => (List.mem_filter.1 hi).2
      refine List.foldlRecOn (motive := fun found => ∀ item ∈ found, without c.withdrawnFunds item = true)
        rest _ hnow fun found hf later hl item hi => ?_
      have hi := (List.mem_filter.1 hi).1
      cases hu : later.unDelegated with
      | none =>
        rw [hu] at hi
        exact hf item hi
      | some u =>
        rw [hu] at hi
        simp only [Option.toList_some, List.map_cons, List.map_nil, List.foldl_cons, List.foldl_nil,
          Value.addItem] at hi
        split at hi
        · exact hf item hi
        · rcases List.mem_append.1 hi with hi | hi
          · exact hf item hi
          · rw [List.mem_singleton.1 hi, without_toItem]
            exact hfirst later hl u hu
    · exact ih hrest hc _

/-- The funds after changes that are made a second time. -/
theorem onFunds_twice (h : InOrder cs) (items : List Value) :
    cs.foldl (fun items c => c.onFunds items) (cs.foldl (fun items c => c.onFunds items) items) =
      cs.foldl (fun items c => c.onFunds items) items := by
  let ids := cs.flatMap (·.withdrawnFunds)
  let added := cs.flatMap (keptFund ids)
  have hsub : ∀ c ∈ cs, c.withdrawnFunds ⊆ ids := fun c hc id hid => List.mem_flatMap.2 ⟨c, hc, hid⟩
  -- after a run nothing is left that the filter would drop
  have hgone (found : List Value) : (cs.foldl (fun items c => c.onFunds items) found).filter (without ids) =
      cs.foldl (fun items c => c.onFunds items) found := by
    refine List.filter_eq_self.2 fun item hi => ?_
    rw [← Bool.not_eq_false, without_eq_false_iff]
    rintro ⟨id, hid, he⟩
    obtain ⟨c, hc, hid⟩ := List.mem_flatMap.1 hid
    have hwithout := without_of_mem_foldl h hc found item hi
    rw [← Bool.not_eq_false, without_eq_false_iff] at hwithout
    exact hwithout ⟨id, hid, he⟩
  have hfold (ds : List StakeChange) (hd : ∀ c ∈ ds, c.withdrawnFunds ⊆ ids) (found : List Value) :
      (ds.foldl (fun items c => c.onFunds items) found).filter (without ids) =
        (ds.flatMap (keptFund ids)).foldl Value.addItem (found.filter (without ids)) := by
    induction ds generalizing found with
    | nil => rfl
    | cons c rest ih =>
      obtain ⟨hc, hrest⟩ := List.forall_mem_cons.1 hd
      rw [List.foldl_cons, ih hrest, filter_onFunds c hc, List.flatMap_cons, List.foldl_append]
  have hrun (found : List Value) : cs.foldl (fun items c => c.onFunds items) found =
      added.foldl Value.addItem (found.filter (without ids)) := by
    rw [← hgone, hfold cs hsub]
  rw [hrun (cs.foldl _ items), hgone, hrun items]
  exact Value.foldl_addItem_eq_self fun w hw => Value.isAmong_foldl_addItem hw _

def edit (cs : List StakeChange) : ItemEdit where
  makes := cs.any (·.unDelegated.isSome)
  onItems items := cs.foldl (fun items c => c.onFunds items) items

def addEdit (c : StakeChange) : ItemEdit where
  makes := c.unDelegated.isSome
  onItems items := (c.unDelegated.toList.map UnDelegateInfo.toItem).foldl Value.addItem items

def dropEdit (c : StakeChange) : ItemEdit where
  makes := false
  onItems items := items.filter (without c.withdrawnFunds)

theorem lawful_addEdit (c : StakeChange) : c.addEdit.Lawful := by
  intro hm
  have hnone : c.unDelegated = none := by simpa [addEdit] using hm
  simp [addEdit, hnone]

theorem edit_singleton (c : StakeChange) : edit [c] = c.addEdit.andThen c.dropEdit := by
  simp [edit, addEdit, dropEdit, ItemEdit.andThen, Function.comp_def, onFunds]

theorem edit_cons (c : StakeChange) (rest : List StakeChange) :
    edit (c :: rest) = (edit [c]).andThen (edit rest) := by
  simp [edit, ItemEdit.andThen, Function.comp_def]

theorem lawful_edit (c : StakeChange) : (edit [c]).Lawful := by
  intro hm
  have hnone : c.unDelegated = none := by simpa [edit] using hm
  simp [edit, onFunds, hnone]

theorem keys_fundsField : Path.keys fundsField = [fundsField] := rfl

/-- The fund that an un-delegation adds, as an edit of the array of funds. -/
theorem get?_add (c : StakeChange) (doc : Value) :
    (Mutation.applyAll (c.unDelegated.toList.map fun u => .addToSet fundsField [u.toItem]) doc).get? fundsField =
      c.addEdit.below [] (doc.get? fundsField) := by
  cases hu : c.unDelegated with
  | none =>
    have hself := c.addEdit.onArray_eq_self (by simp [addEdit, hu]) (by simp [addEdit, hu])
    cases hf : doc.get? fundsField with
    | none => simp [hf, ItemEdit.below, addEdit, hu]
    | some w => simp [hf, ItemEdit.below, ItemEdit.applyAt, hself]
  | some u =>
    have htouch := Mutation.touches_addToSet keys_fundsField [u.toItem] doc
    have hedit (w : Value) : c.addEdit.onArray w = Value.addEach [u.toItem] w := by
      cases hi : w.items? <;>
        simp [ItemEdit.onArray, hi, addEdit, hu, Value.addEach_eq]
    have happly : Mutation.applyAll ((some u).toList.map fun u => .addToSet fundsField [u.toItem]) doc =
        (Mutation.addToSet fundsField [u.toItem]).apply doc := rfl
    rw [happly, htouch]
    cases doc.get? fundsField with
    | none =>
      have hmakes : c.addEdit.makes = true := by simp [addEdit, hu]
      simp [Touch.apply, ItemEdit.below, ItemEdit.applyAt, hedit, hmakes]
    | some w => simp [Touch.apply, ItemEdit.below, ItemEdit.applyAt, hedit]

/-- The funds that a withdrawal drops, as an edit of the array of funds. -/
theorem get?_drop (c : StakeChange) (doc : Value) :
    (Mutation.applyAll (if c.withdrawnFunds.isEmpty then []
        else [.removeWhere fundsField "id" (c.withdrawnFunds.map .str)]) doc).get? fundsField =
      c.dropEdit.below [] (doc.get? fundsField) := by
  have hdrop (w : Value) : c.dropEdit.onArray w = Value.dropWhere "id" (c.withdrawnFunds.map .str) w := by
    cases w <;> rfl
  cases hw : c.withdrawnFunds with
  | nil =>
    have hself := c.dropEdit.onArray_eq_self rfl fun items => by
      refine List.filter_eq_self.2 fun item _ => ?_
      rw [← Bool.not_eq_false, without_eq_false_iff, hw]
      simp
    cases hf : doc.get? fundsField with
    | none => simp [hf, ItemEdit.below, dropEdit]
    | some w => simp [hf, ItemEdit.below, ItemEdit.applyAt, hself]
  | cons id rest =>
    rw [hw] at hdrop
    simp only [List.isEmpty_cons, Bool.false_eq_true, ↓reduceIte, Mutation.applyAll_cons, Mutation.applyAll_nil,
      Mutation.apply, keys_fundsField, Value.get?_adjustAt_self]
    cases doc.get? fundsField with
    | none => rfl
    | some w => exact congrArg some (hdrop w).symm

/-- All that one change of a stake makes of the array of funds. -/
theorem get?_mutations_funds (c : StakeChange) (doc : Value) :
    (Mutation.applyAll c.mutations doc).get? fundsField = (edit [c]).below [] (doc.get? fundsField) := by
  have hmerge : (Mutation.merge (.record [("address", .str c.address), ("contract", .str c.contract),
      ("activeStake", .str c.activeStake), ("activeStakeNum", .double c.activeStakeNum),
      ("timestamp", .nat c.timestamp)])).Avoids fundsField :=
    Mutation.avoids_merge (by simp) (by simp [Dict.keys, fundsField])
  have hparts := Mutation.applyAll_append ([Mutation.merge (.record [("address", .str c.address),
      ("contract", .str c.contract), ("activeStake", .str c.activeStake),
      ("activeStakeNum", .double c.activeStakeNum), ("timestamp", .nat c.timestamp)])] ++
      c.unDelegated.toList.map fun u => .addToSet fundsField [u.toItem])
    (if c.withdrawnFunds.isEmpty then []
      else [.removeWhere fundsField "id" (c.withdrawnFunds.map .str)]) doc
  rw [mutations]
  refine (congrArg (·.get? fundsField) hparts).trans ?_
  rw [get?_drop, Mutation.applyAll_append, get?_add, Mutation.applyAll_cons, Mutation.applyAll_nil, hmerge,
    edit_singleton, ItemEdit.below_andThen c.lawful_addEdit]

/-- Changes one after the other make one edit of the array. -/
theorem get?_applyAll_funds (cs : List StakeChange) (doc : Value) :
    (Mutation.applyAll (cs.flatMap mutations) doc).get? fundsField = (edit cs).below [] (doc.get? fundsField) := by
  induction cs generalizing doc with
  | nil =>
    have hself := (edit []).onArray_eq_self rfl fun _ => rfl
    cases hf : doc.get? fundsField with
    | none => simp [hf, ItemEdit.below, edit]
    | some w => simp [hf, ItemEdit.below, ItemEdit.applyAt, hself]
  | cons c rest ih =>
    rw [List.flatMap_cons, Mutation.applyAll_append, ih, get?_mutations_funds, edit_cons c rest,
      ItemEdit.below_andThen c.lawful_edit]

theorem ordered_mutations (c : StakeChange) : ∀ m ∈ c.mutations, m.Ordered := by
  intro m hm
  simp only [mutations, List.mem_append, List.mem_singleton, List.mem_map] at hm
  rcases hm with (rfl | ⟨u, -, rfl⟩) | hm
  · exact Value.isDocument_record (by simp)
  · intro v hv
    rw [List.mem_singleton.1 hv]
    exact u.ordered_toItem
  · split at hm
    · cases hm
    · rw [List.mem_singleton.1 hm]
      trivial

/-- Fields beside the funds are set. -/
theorem touches_mutations (c : StakeChange) {key : String} (hk : fundsField ≠ key) :
    ∀ m ∈ c.mutations, ∃ t, m.Touches key t := by
  intro m hm
  simp only [mutations, List.mem_append, List.mem_singleton, List.mem_map] at hm
  rcases hm with (rfl | ⟨u, -, rfl⟩) | hm
  · exact Mutation.touches_merge (Value.isFlat_record (by simp)) key
  · exact ⟨_, (Mutation.avoids_addToSet keys_fundsField hk _).touches⟩
  · split at hm
    · cases hm
    · rw [List.mem_singleton.1 hm]
      exact ⟨_, (Mutation.avoids_removeWhere keys_fundsField hk _ _).touches⟩

/-- Changes of stakes, made again, change nothing more if no fund returns after its withdrawal. -/
theorem settle_mutations (h : InOrder cs) : Mutation.Settle (cs.flatMap mutations) := by
  intro doc hd
  refine Mutation.applyAll_twice (fun m hm => ?_) hd fun key => ?_
  · obtain ⟨c, -, hc⟩ := List.mem_flatMap.1 hm
    exact c.ordered_mutations m hc
  · by_cases hk : fundsField = key
    · subst hk
      rw [get?_applyAll_funds, get?_applyAll_funds, ItemEdit.below_below (onFunds_twice h)]
    · refine Mutation.get?_applyAll_twice (fun m hm => ?_) doc
      obtain ⟨c, -, hc⟩ := List.mem_flatMap.1 hm
      exact c.touches_mutations hk m hc

end StakeChange
end ChainIndex
