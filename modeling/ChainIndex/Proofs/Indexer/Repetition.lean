import ChainIndex.Proofs.Correlation.Withdrawal
import ChainIndex.Proofs.Indexer.Records

/-!
What a block adds to a transaction that it does not hold, added again. Adding it twice is adding it
once; adding it after a revert restores the document exactly if the document had no other refund under
a result of the block.
-/
namespace ChainIndex

variable {d : Denomination} {l l' : Ledger} {doc other : Value} {name : String}

/-- A document without a field beside those of placeholders. -/
theorem Rollback.get?_of_isBarePlaceholder (h : isBarePlaceholder doc = true) {key : String}
    (hk : key ∉ placeholderFields) : doc.get? key = none := by
  cases doc with
  | obj fields =>
    simp only [isBarePlaceholder, List.all_eq_true] at h
    refine Dict.find?_eq_none_iff.2 fun hm => hk ?_
    obtain ⟨e, he, rfl⟩ := List.mem_map.1 hm
    simpa using h e he
  | _ => cases h

theorem Rollback.isBarePlaceholder_of_get? (h : doc.IsRecord)
    (hn : ∀ key, key ∉ placeholderFields → doc.get? key = none) : isBarePlaceholder doc = true := by
  obtain ⟨fields, rfl, hs⟩ := h
  simp only [isBarePlaceholder, List.all_eq_true]
  intro e he
  by_cases hk : e.1 ∈ placeholderFields
  · simpa using hk
  · have hfound := hs.find?_of_mem he
    rw [← Value.get?_obj, hn e.1 hk] at hfound
    cases hfound

theorem Rollback.not_mem_placeholderFields {key : String}
    (h : key ∈ Fee.fields ∨ key ∈ StatusInfo.fieldNames) :
    key ∉ placeholderFields := by
  simp only [Fee.fields, StatusInfo.fieldNames, List.mem_cons, List.not_mem_nil, or_false] at h
  rcases h with (rfl | rfl | rfl | rfl) | (rfl | rfl | rfl) <;> decide

namespace ForeignUpdate

variable (u : ForeignUpdate)

def addTo (u : ForeignUpdate) (d : Denomination) (name : String) (doc : Value) : Value :=
  Mutation.applyAll (u.mutations d ++ Indexer.typing name) doc

theorem shows_addTo (name : String) (h : l.Shows d doc) :
    (l.credited d u.refunds).Shows d (u.addTo d name doc) := by
  unfold addTo
  rw [Mutation.applyAll_append]
  exact (u.shows_mutations h).typing name

theorem get?_addTo (d : Denomination) (name : String) (doc : Value) {key : String} (hfee : key ∉ Fee.fields)
    (hstatus : key ∉ StatusInfo.fieldNames) :
    (u.addTo d name doc).get? key =
      if name = Index.operations ∧ "type" = key then some (.str "normal")
      else if u.hasScResults ∧ Rollback.hasScResults = key then some (.bool true)
      else doc.get? key := by
  unfold addTo
  rw [Mutation.applyAll_append, Indexer.get?_typing, u.get?_mutations d doc hfee hstatus]

/-- The signal is latched onto the status that the document shows. -/
theorem get?_addTo_status (d : Denomination) (name : String) (doc : Value) {key : String}
    (hk : key ∈ StatusInfo.fieldNames) :
    (u.addTo d name doc).get? key =
      match u.signal with
      | none => doc.get? key
      | some signal => (Mutation.setStatus ((Mutation.statusOf doc).latch signal) doc).get? key := by
  have hnot : ∀ key ∈ StatusInfo.fieldNames,
      key ∉ Fee.fields ∧ key ≠ Rollback.hasScResults ∧ key ≠ "type" := by decide
  have hbefore : ∀ key ∈ StatusInfo.fieldNames,
      (Mutation.applyAll (u.refunds.map fun e => .fee (.relativeAdjust e.1 e.2 d)) (u.marked doc)).get? key =
        doc.get? key := by
    intro key hk
    obtain ⟨hfee, hmark, -⟩ := hnot key hk
    rw [get?_credited d u.refunds _ hfee, get?_marked, if_neg fun h => hmark h.2.symm]
  unfold addTo
  rw [Mutation.applyAll_append, Indexer.get?_typing, if_neg fun h => (hnot key hk).2.2 h.2.symm, mutations_eq,
    Mutation.applyAll_append, Mutation.applyAll_append]
  cases u.signal with
  | none => exact hbefore key hk
  | some signal =>
    have hstatus := Mutation.statusOf_congr hbefore
    simp only [Option.toList_some, List.map_cons, List.map_nil, Mutation.applyAll_cons, Mutation.applyAll_nil,
      Mutation.apply]
    unfold marked at hstatus
    rw [hstatus]
    exact Mutation.get?_setStatus_of_mem _ _ _ hk

/-- What the block adds comes out the same on a document that differs only in the mark of results and
in refunds that the block brings. -/
theorem addTo_eq_addTo (h : l.Shows d doc) (ho : l'.Shows d other)
    (same : ∀ key, key ∉ Fee.fields → (u.hasScResults = true → key ≠ Rollback.hasScResults) →
      other.get? key = (u.addTo d name doc).get? key)
    (ledger : l'.credited d u.refunds = l.credited d u.refunds) :
    u.addTo d name other = u.addTo d name doc := by
  have hshows := u.shows_addTo name h
  have hshows' := u.shows_addTo name ho
  rw [ledger] at hshows'
  have hnot : ∀ key ∈ StatusInfo.fieldNames, key ∉ Fee.fields ∧ key ≠ Rollback.hasScResults := by decide
  have hstatus : ∀ key ∈ StatusInfo.fieldNames, other.get? key = (u.addTo d name doc).get? key :=
    fun key hk => same key (hnot key hk).1 fun _ => (hnot key hk).2
  refine hshows'.record.ext hshows.record fun key => ?_
  by_cases hfee : key ∈ Fee.fields
  · exact hshows.get?_eq hshows' hfee
  · by_cases hk : key ∈ StatusInfo.fieldNames
    · rw [u.get?_addTo_status d name other hk]
      cases hsignal : u.signal with
      | none => exact hstatus key hk
      | some signal =>
        have hknown : Mutation.statusOf (u.addTo d name doc) = (Mutation.statusOf doc).latch signal := by
          have hlatched : ∀ key ∈ StatusInfo.fieldNames, (u.addTo d name doc).get? key =
              (Mutation.setStatus ((Mutation.statusOf doc).latch signal) doc).get? key := fun key hk => by
            rw [u.get?_addTo_status d name doc hk, hsignal]
          rw [Mutation.statusOf_congr hlatched, Mutation.statusOf_setStatus]
        -- the second latch finds what the first one left
        simp only [Mutation.statusOf_congr hstatus, hknown, StatusInfo.latch_idem]
        rw [u.get?_addTo_status d name doc hk, hsignal]
        exact Mutation.get?_setStatus_of_mem _ _ _ hk
    · rw [u.get?_addTo d name other hfee hk]
      by_cases htype : name = Index.operations ∧ "type" = key
      · rw [if_pos htype, u.get?_addTo d name doc hfee hk, if_pos htype]
      · rw [if_neg htype]
        by_cases hmark : u.hasScResults = true ∧ Rollback.hasScResults = key
        · rw [if_pos hmark, u.get?_addTo d name doc hfee hk, if_neg htype, if_pos hmark]
        · rw [if_neg hmark]
          exact same key hfee fun hu he => hmark ⟨hu, he.symm⟩

/-- Adding twice is adding once. -/
theorem addTo_addTo (h : l.Shows d doc) : u.addTo d name (u.addTo d name doc) = u.addTo d name doc :=
  u.addTo_eq_addTo h (u.shows_addTo name h) (fun _ _ _ => rfl) (l.credited_credited u.refunds)

/-- Nothing but the mark and the type is left in a bare placeholder, and the block adds them again. -/
theorem addTo_bare (hu : u.hasScResults = true) (h : l.Shows d doc)
    (hbare : Rollback.isBarePlaceholder doc = true)
    (htype : name ≠ Index.operations → doc.get? "type" = none) :
    u.addTo d name .empty = u.addTo d name doc := by
  have hnone : ∀ key, key ∉ Rollback.placeholderFields → doc.get? key = none := fun key =>
    Rollback.get?_of_isBarePlaceholder hbare
  have hempty : ({} : Ledger).Shows d doc := Ledger.shows_empty.of_get? h.record fun key hk =>
    (hnone key (Rollback.not_mem_placeholderFields (.inl hk))).trans rfl
  have hrecord := u.shows_addTo name hempty
  have hrecord' := u.shows_addTo name (Ledger.shows_empty (d := d))
  refine hrecord'.record.ext hrecord.record fun key => ?_
  by_cases hfee : key ∈ Fee.fields
  · exact hrecord.get?_eq hrecord' hfee
  · by_cases hk : key ∈ StatusInfo.fieldNames
    · have hstatus : Mutation.statusOf doc = Mutation.statusOf .empty := Mutation.statusOf_congr fun key hk =>
        hnone key (Rollback.not_mem_placeholderFields (.inr hk))
      rw [u.get?_addTo_status d name .empty hk, u.get?_addTo_status d name doc hk]
      cases u.signal with
      | none => exact (hnone key (Rollback.not_mem_placeholderFields (.inr hk))).symm
      | some signal =>
        rw [hstatus]
        exact Mutation.get?_setStatus_of_mem _ _ _ hk
    · rw [u.get?_addTo d name .empty hfee hk, u.get?_addTo d name doc hfee hk]
      by_cases hop : name = Index.operations ∧ "type" = key
      · rw [if_pos hop, if_pos hop]
      · rw [if_neg hop, if_neg hop]
        by_cases hmark : u.hasScResults = true ∧ Rollback.hasScResults = key
        · rw [if_pos hmark, if_pos hmark]
        · rw [if_neg hmark, if_neg hmark, Value.get?_empty]
          by_cases hkey : "type" = key
          · subst hkey
            exact (htype fun hn => hop ⟨hn, rfl⟩).symm
          · refine (hnone key ?_).symm
            simp only [Rollback.placeholderFields, List.mem_cons, List.not_mem_nil, or_false, not_or]
            exact ⟨fun he => hmark ⟨hu, he.symm⟩, fun he => hkey he.symm⟩

/-- What the block adds to the document that a revert left is what it adds to the unwound document, also
where the revert removed it as a bare placeholder. -/
theorem addTo_unwound (hu : u.hasScResults = true) (h : l.Shows d doc) (ids : List String) (others : Bool)
    (htype : name ≠ Index.operations → doc.get? "type" = none) :
    u.addTo d name ((Rollback.unwound (Rollback.unwindMutations d ids others)
        (some (u.addTo d name doc))).getD .empty) =
      u.addTo d name (Mutation.applyAll (Rollback.unwindMutations d ids others) (u.addTo d name doc)) := by
  have hleft := Rollback.shows_unwindMutations ids others (u.shows_addTo name h)
  simp only [Rollback.unwound]
  split
  · rfl
  · next hgone =>
    simp only [Bool.or_eq_true, Bool.not_eq_true', not_or, Bool.not_eq_false] at hgone
    refine u.addTo_bare hu hleft hgone.2 fun hn => ?_
    rw [Rollback.get?_unwindMutations d ids others _ (by decide), if_neg fun h => absurd h.2 (by decide),
      u.get?_addTo d name doc (by decide) (by decide), if_neg fun h => hn h.1,
      if_neg fun h => absurd h.2 (by decide), htype hn]

/-- What a revert leaves of the document is restored exactly if the document had no other refund under
one of the reverted results. -/
theorem addTo_unwound_iff (hu : u.hasScResults = true) (h : l.Shows d doc) {paid : Amount × UInt64}
    (hb : l.Balanced paid) {ids : List String}
    (hids : ∀ id refund, u.refunds.find? id = some refund → id ∈ ids)
    (htype : name ≠ Index.operations → doc.get? "type" = none) (others : Bool) :
    u.addTo d name ((Rollback.unwound (Rollback.unwindMutations d ids others)
        (some (u.addTo d name doc))).getD .empty) = u.addTo d name doc ↔
      ∀ id ∈ ids, ∀ refund, l.refunds.find? id = some refund → u.refunds.find? id = some refund := by
  have hadded := u.shows_addTo name h
  have hleft := Rollback.shows_unwindMutations ids others hadded
  have hagain := u.shows_addTo name hleft
  rw [u.addTo_unwound hu h ids others htype, ← Ledger.recredited_refunds_iff (d := d) h.sorted hids]
  constructor
  · intro same
    exact hagain.storedRefunds.symm.trans ((congrArg Fee.storedRefunds same).trans hadded.storedRefunds)
  · intro hrefunds
    refine u.addTo_eq_addTo h hleft (fun key hfee hmark => ?_) (hb.recredited_eq h.sorted hrefunds)
    rw [Rollback.get?_unwindMutations d ids others _ hfee, if_neg fun he => hmark hu he.2.symm]

end ForeignUpdate
end ChainIndex
