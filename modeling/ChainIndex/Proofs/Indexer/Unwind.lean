import ChainIndex.Indexer.Basic
import ChainIndex.Proofs.Store.Unavailable

/-!
What unwinding makes of the transactions that reverted results belong to: they lose what the results gave
to them. Each of their two indices is unwound if it is available and the index of the results is.
-/
namespace ChainIndex

variable {s t : Store} {id : String}

/-- The indices that have a document for every transaction. -/
def Index.records : List String := [Index.transactions, Index.operations]

namespace Rollback

def parents (hashes : List String) (s : Store) : Dict (List String) :=
  resultsByParent hashes (hashes.map (s.get? Index.scResults))

def others (hashes : List String) (s : Store) (parent : String) : Bool :=
  (s.selected Index.scResults (.term originTxHash (.str parent))).any fun doc => !hashes.contains doc.id

/-- What the changes leave of a transaction; a placeholder goes once nothing is left in it. -/
def unwound (ms : List Mutation) : Option Value → Option Value
  | none => none
  | some doc =>
    if (doc.get? Fee.feeField).isSome || !isBarePlaceholder (Mutation.applyAll ms doc) then
      some (Mutation.applyAll ms doc)
    else none

/-- What a revert leaves of a transaction that the body does not name. -/
def unwoundAt (d : Denomination) (hashes : List String) (s : Store) (id : String) (stored : Option Value) :
    Option Value :=
  match (parents hashes s).find? id with
  | some results => unwound (unwindMutations d results (others hashes s id)) stored
  | none => stored

/-- What unwinding leaves has what the stored document had, if taking results back preserves it. -/
theorem unwoundAt_induction {P : Value → Prop} {d : Denomination} {hashes : List String} {stored : Option Value}
    {doc : Value} (hs : ∀ old, stored = some old → P old)
    (step : ∀ results others old, P old → P (Mutation.applyAll (unwindMutations d results others) old))
    (hd : unwoundAt d hashes s id stored = some doc) : P doc := by
  unfold unwoundAt at hd
  split at hd
  · cases stored with
    | none => cases hd
    | some old =>
      simp only [unwound] at hd
      split at hd
      · obtain rfl := Option.some.inj hd
        exact step _ _ old (hs old rfl)
      · cases hd
  · exact hs doc hd

def changed (changes : Dict (List Mutation)) (id : String) (stored : Option Value) : Option Value :=
  match changes.find? id with
  | some ms => unwound ms stored
  | none => stored

def unwinding (d : Denomination) (hashes : List String) (s : Store) : Dict (List Mutation) :=
  (parents hashes s).map fun e => (e.1, unwindMutations d e.2 (others hashes s e.1))

theorem sorted_resultsByParent (hashes : List String) (docs : List (Option Value)) :
    (resultsByParent hashes docs).Sorted := by
  refine List.foldlRecOn _ _ List.Pairwise.nil fun parents hp e _ => ?_
  dsimp only
  split
  · split
    · exact hp
    · exact hp.insert _ _
  · exact hp

theorem nodup_keys_unwinding (d : Denomination) (hashes : List String) (s : Store) :
    (unwinding d hashes s).keys.Nodup := by
  have hkeys := Dict.keys_map (parents hashes s) fun key results => unwindMutations d results (others hashes s key)
  rw [unwinding, hkeys]
  exact (sorted_resultsByParent hashes _).nodup_keys

/-- Each transaction is changed by its own reverted results. -/
theorem find?_unwinding (d : Denomination) (hashes : List String) (s : Store) (id : String) :
    (unwinding d hashes s).find? id =
      ((parents hashes s).find? id).map fun results => unwindMutations d results (others hashes s id) :=
  Dict.find?_map (parents hashes s) (fun key results => unwindMutations d results (others hashes s key)) id

theorem changed_eq_unwoundAt {changes : Dict (List Mutation)} {d : Denomination} {hashes : List String}
    (h : changes.find? id = ((parents hashes s).find? id).map fun results =>
      unwindMutations d results (others hashes s id)) (stored : Option Value) :
    changed changes id stored = unwoundAt d hashes s id stored := by
  rw [changed, unwoundAt, h]
  cases (parents hashes s).find? id <;> rfl

/-- Unwinding reads results only. -/
theorem unwoundAt_congr (hs : s.Usable) (ht : t.Usable)
    (h : ∀ id, t.get? Index.scResults id = s.get? Index.scResults id) (d : Denomination)
    (hashes : List String) (id : String) (stored : Option Value) :
    unwoundAt d hashes t id stored = unwoundAt d hashes s id stored := by
  have hparents : parents hashes t = parents hashes s := by
    unfold parents
    rw [funext h]
  have hothers : others hashes t id = others hashes s id := by
    unfold others Store.selected Store.documents
    rw [hs.index_eq ht h]
  rw [unwoundAt, unwoundAt, hparents, hothers]

/-- With nothing written since the read, the write that was decided has the effect of the changes. -/
theorem unwindItem?_apply (id : String) (ms : List Mutation) (stored : Option Value) :
    (match unwindItem? id ms stored with
      | some item => item.action.apply stored
      | none => stored) = unwound ms stored := by
  cases stored with
  | none => rfl
  | some doc =>
    simp only [unwindItem?, unwound]
    cases hfee : (doc.get? Fee.feeField).isSome with
    | true => simp [WriteAction.apply]
    | false =>
      cases hbare : isBarePlaceholder (Mutation.applyAll ms doc) <;> simp [WriteAction.apply]

theorem id_of_unwindItem? {id : String} {ms : List Mutation} {stored : Option Value} {item : WriteItem}
    (h : unwindItem? id ms stored = some item) : item.id = id := by
  unfold unwindItem? at h
  split at h
  · cases h
  · split at h <;> cases h <;> rfl

/-- What the write that unwinds a document makes of `current`, when the document was read as `read`. -/
def unwoundLate (id : String) (ms : List Mutation) (read current : Option Value) : Option Value :=
  match unwindItem? id ms read with
  | some item => item.action.apply current
  | none => current

/-- Each changed transaction is written by what was read of it. -/
theorem applyAt_unwindItems_late {changes : Dict (List Mutation)} (hn : changes.keys.Nodup)
    (read : String → Option Value) (id : String) (current : Option Value) :
    WriteItem.applyAt id (changes.filterMap fun e => unwindItem? e.1 e.2 (read e.1)) current =
      match changes.find? id with
      | some ms => unwoundLate id ms (read id) current
      | none => current := by
  induction changes generalizing current with
  | nil => rfl
  | cons e rest ih =>
    obtain ⟨key, ms⟩ := e
    obtain ⟨hout, hrest⟩ := List.nodup_cons.1 hn
    rw [List.filterMap_cons, Dict.find?]
    by_cases hk : key = id
    · subst hk
      have hskip (doc : Option Value) :
          WriteItem.applyAt key (rest.filterMap fun e => unwindItem? e.1 e.2 (read e.1)) doc = doc := by
        refine WriteItem.applyAt_of_not_mem doc fun item hi => ?_
        obtain ⟨other, ho, hitem⟩ := List.mem_filterMap.1 hi
        rw [id_of_unwindItem? hitem]
        exact fun same => hout (same ▸ List.mem_map.2 ⟨other, ho, rfl⟩)
      cases hitem : unwindItem? key ms (read key) with
      | none => simp [unwoundLate, hskip, hitem]
      | some item => simp [unwoundLate, hskip, hitem, id_of_unwindItem? hitem]
    · cases hitem : unwindItem? key ms (read key) with
      | none => simpa [hk] using ih hrest current
      | some item =>
        have hid : item.id ≠ id := by rwa [id_of_unwindItem? hitem]
        simpa [hk, hid] using ih hrest current

/-- Each changed transaction is unwound by the write made for it. -/
theorem applyAt_unwindItems {changes : Dict (List Mutation)} (hn : changes.keys.Nodup)
    (stored : String → Option Value) (id : String) :
    WriteItem.applyAt id (changes.filterMap fun e => unwindItem? e.1 e.2 (stored e.1)) (stored id) =
      changed changes id (stored id) := by
  rw [applyAt_unwindItems_late hn, changed]
  cases changes.find? id with
  | none => rfl
  | some ms => exact unwindItem?_apply id ms (stored id)

theorem filterMap_zip_keys {α β γ : Type} (d : Dict α) (f : String → β) (g : (String × α) × β → Option γ) :
    (d.zip (d.keys.map f)).filterMap g = d.filterMap fun e => g (e, f e.1) := by
  induction d with
  | nil => rfl
  | cons e rest ih =>
    rw [Dict.keys, List.map_cons, List.map_cons, List.zip_cons_cons, List.filterMap_cons, List.filterMap_cons]
    cases g (e, f e.1) with
    | none => exact ih
    | some item => exact congrArg (item :: ·) ih

def writeItems (index : String) (items : List WriteItem) : StoreM Unit :=
  match items with
  | [] => pure ()
  | items => StoreM.bulkUpsert index items

theorem gives_writeItems (index : String) (items : List WriteItem) (h : s.Usable) :
    ∃ t, (writeItems index items).Gives s () t ∧ ∀ name id, t.get? name id =
      if index = name then WriteItem.applyAt id items (s.get? name id) else s.get? name id := by
  cases items with
  | nil => exact ⟨s, StoreM.gives_pure () s, fun name id => by simp⟩
  | cons item rest => exact ⟨_, StoreM.gives_bulkUpsert h _ _, Store.get?_upserted s _ _⟩

theorem within_writeItems (index : String) (items : List WriteItem) : (writeItems index items).Within [index] := by
  cases items with
  | nil => exact StoreM.within_pure ()
  | cons item rest => exact StoreM.within_bulkUpsert _ _

theorem succeeds_writeItems (index : String) (items : List WriteItem) : (writeItems index items).Succeeds := by
  cases items with
  | nil => exact StoreM.succeeds_pure ()
  | cons item rest => exact StoreM.succeeds_bulkUpsert _ _

/-- On a usable store every changed transaction of the index is unwound. -/
theorem gives_unwindParents (index : String) {changes : Dict (List Mutation)} (hn : changes.keys.Nodup)
    (h : s.Usable) :
    ∃ t, (unwindParents index changes).Gives s () t ∧ ∀ name id, t.get? name id =
      if index = name then changed changes id (s.get? name id) else s.get? name id := by
  have hitems : (changes.zip (changes.keys.map (s.get? index))).filterMap (fun e => unwindItem? e.1.1 e.1.2 e.2) =
      changes.filterMap fun e => unwindItem? e.1 e.2 (s.get? index e.1) := filterMap_zip_keys _ _ _
  obtain ⟨t, ht, hget⟩ := gives_writeItems index (changes.filterMap fun e => unwindItem? e.1 e.2 (s.get? index e.1)) h
  rw [← hitems] at ht
  refine ⟨t, (StoreM.gives_multiGet h index changes.keys).bind ht, fun name id => ?_⟩
  rw [hget]
  split
  · next he =>
    subst he
    exact applyAt_unwindItems hn (s.get? index) id
  · rfl

theorem within_unwindParents (index : String) (changes : Dict (List Mutation)) :
    (unwindParents index changes).Within [index] :=
  (StoreM.within_multiGet index _).bind fun _ => within_writeItems index _

/-- The changes are decided by what is stored of other results. -/
theorem gives_unwinds (d : Denomination) (hashes : List String) (groups : Dict (List String)) (h : s.Usable) :
    (unwinds d hashes groups).Gives s
      (groups.map fun e => (e.1, unwindMutations d e.2 (others hashes s e.1))) s := by
  induction groups with
  | nil => exact StoreM.gives_pure _ s
  | cons e rest ih =>
    have hothers : (hasOtherResults hashes e.1).Gives s (others hashes s e.1) s :=
      (StoreM.gives_scroll h _ _).bind (StoreM.gives_pure _ s)
    exact hothers.bind (ih.bind (StoreM.gives_pure _ s))

theorem within_unwinds (d : Denomination) (hashes : List String) (groups : Dict (List String)) :
    (unwinds d hashes groups).Within [Index.scResults] := by
  induction groups with
  | nil => exact StoreM.within_pure _
  | cons e rest ih =>
    have hothers : (hasOtherResults hashes e.1).Within [Index.scResults] :=
      (StoreM.within_scroll _ _).bind fun _ => StoreM.within_pure _
    exact hothers.bind fun _ => ih.bind fun _ => StoreM.within_pure _

theorem within_unwindResults (d : Denomination) (hashes : List String) :
    (unwindResults d hashes).Within [Index.transactions, Index.scResults, Index.operations] := by
  refine ((StoreM.within_multiGet _ _).mono (by decide)).bind fun docs => ?_
  split
  · exact StoreM.within_pure ()
  · refine ((within_unwinds d hashes _).mono (by decide)).bind fun changes => ?_
    refine Session.Within.bind (Session.within_all fun p hp => ?_) fun _ => trivial
    simp only [List.mem_cons, List.not_mem_nil, or_false] at hp
    rcases hp with rfl | rfl
    · exact (within_unwindParents _ _).mono (by decide)
    · exact (within_unwindParents _ _).mono (by decide)

theorem succeeds_unwindParents (index : String) (changes : Dict (List Mutation)) :
    (unwindParents index changes).Succeeds :=
  (StoreM.succeeds_multiGet index _).bind fun _ => succeeds_writeItems index _

theorem succeeds_unwinds (d : Denomination) (hashes : List String) (groups : Dict (List String)) :
    (unwinds d hashes groups).Succeeds := by
  induction groups with
  | nil => exact StoreM.succeeds_pure _
  | cons e rest ih =>
    have hothers : (hasOtherResults hashes e.1).Succeeds :=
      (StoreM.succeeds_scroll _ _).bind fun _ => StoreM.succeeds_pure _
    exact hothers.bind fun _ => ih.bind fun _ => StoreM.succeeds_pure _

theorem succeeds_unwindResults (d : Denomination) (hashes : List String) : (unwindResults d hashes).Succeeds := by
  refine (StoreM.succeeds_multiGet _ _).bind fun docs => ?_
  split
  · exact StoreM.succeeds_pure ()
  · refine (succeeds_unwinds d hashes _).bind fun changes => ?_
    refine StoreM.succeeds_all [unwindParents Index.transactions changes,
      unwindParents Index.operations changes] fun p hp => ?_
    simp only [List.mem_cons, List.not_mem_nil, or_false] at hp
    rcases hp with rfl | rfl
    · exact succeeds_unwindParents _ _
    · exact succeeds_unwindParents _ _

/-- An unavailable index of transactions stays as it is. -/
theorem get?_attempt_unwindParents (index : String) {changes : Dict (List Mutation)}
    (hn : changes.keys.Nodup) (h : s.Usable) (down : List String) (name id : String) :
    (Session.attempt (unwindParents index changes).run down s).get? name id =
      if index = name ∧ name ∉ down then changed changes id (s.get? name id) else s.get? name id := by
  obtain ⟨t, ht, hget⟩ := gives_unwindParents index hn h
  rw [ht.get?_attempt (within_unwindParents index changes) h, hget]
  by_cases hd : name ∈ down <;> simp [hd]

/-- Each index of transactions is changed if it is available. -/
theorem get?_attempt_unwindRecords {changes : Dict (List Mutation)} (hn : changes.keys.Nodup) (h : s.Usable)
    (down : List String) (name id : String) :
    (Session.attempt (Session.all [(unwindParents Index.transactions changes).run,
      (unwindParents Index.operations changes).run]) down s).get? name id =
      if name ∈ Index.records ∧ name ∉ down then changed changes id (s.get? name id) else s.get? name id := by
  have hfirst := Session.usable_attempt h (unwindParents Index.transactions changes).run down
  have hne : Index.transactions ≠ Index.operations := by decide
  rw [Session.attempt_all h.available, List.foldl_cons, List.foldl_cons, List.foldl_nil,
    get?_attempt_unwindParents Index.operations hn hfirst, get?_attempt_unwindParents _ hn h]
  by_cases hop : Index.operations = name
  · subst hop
    simp [Index.records, hne]
  · by_cases htx : Index.transactions = name
    · subst htx
      simp [Index.records, hop]
    · simp [Index.records, hop, htx, Ne.symm hop, Ne.symm htx]

/-- Each index of transactions is unwound if it is available and the results are. -/
theorem get?_attempt_unwindResults (d : Denomination) (hashes : List String) (h : s.Usable)
    (down : List String) (name id : String) :
    (Session.attempt (unwindResults d hashes).run down s).get? name id =
      if name ∈ Index.records ∧ name ∉ down ∧ Index.scResults ∉ down then
        unwoundAt d hashes s id (s.get? name id)
      else s.get? name id := by
  unfold unwindResults
  by_cases hresults : Index.scResults ∈ down
  · rw [StoreM.attempt_multiGet_bind h hresults]
    simp only [hresults, not_true_eq_false, and_false, ↓reduceIte]
  have hup : ∀ name ∈ [Index.scResults], name ∉ down := List.forall_mem_singleton.2 hresults
  have hread := (StoreM.gives_multiGet h Index.scResults hashes).withUnavailable (StoreM.within_multiGet _ _) h hup
  have hunwinds := (gives_unwinds d hashes (parents hashes s) h).withUnavailable (within_unwinds d hashes _) h hup
  have hunwound := changed_eq_unwoundAt (find?_unwinding d hashes s id) (s.get? name id)
  have hn := nodup_keys_unwinding d hashes s
  rw [hread.attempt_bind h, ← hunwound]
  simp only [hresults, not_false_eq_true, and_true]
  have hparents : resultsByParent hashes (hashes.map (s.get? Index.scResults)) = parents hashes s := rfl
  rw [hparents]
  unfold unwinding at *
  cases hgroups : parents hashes s with
  | nil =>
    rw [List.map_nil, changed, Dict.find?_nil, ite_self]
    exact congrArg (·.get? name id) (Session.attempt_done h.available _ down)
  | cons e rest =>
    rw [hgroups] at hunwinds hn
    dsimp only
    rw [hunwinds.attempt_bind h, ExceptT.run_mk]
    refine (congrArg (·.get? name id) (Session.attempt_bind_done _ firstError down s)).trans ?_
    exact get?_attempt_unwindRecords hn h down name id

end Rollback
end ChainIndex
