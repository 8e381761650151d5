import ChainIndex.Indexer.Batch
import ChainIndex.Proofs.Store.Effect
import ChainIndex.Proofs.Write.Bulk
import ChainIndex.Proofs.Write.Combine

/-!
Batches. What a batch makes of a document is what its writes make of it one after the other, and that
is also what its flush leaves in the store, however the writes are cut into requests.
-/
namespace ChainIndex

namespace WriteBatch

variable {b : WriteBatch} {name : String}

def applyAt (b : WriteBatch) (name id : String) (stored : Option Value) : Option Value :=
  match b.get? name id with
  | some action => action.apply stored
  | none => stored

def Free (b : WriteBatch) (name : String) : Prop :=
  ∀ id action, b.get? name id = some action → action.IsFree

structure Ordered (b : WriteBatch) : Prop where
  indices : b.indices.Sorted
  documents : ∀ name docs, b.indices.find? name = some docs → docs.Sorted

/-- No index comes twice, and no document of an index. -/
structure Distinct (b : WriteBatch) : Prop where
  indices : b.indices.keys.Nodup
  documents : ∀ name docs, b.indices.find? name = some docs → docs.keys.Nodup

theorem Ordered.distinct (h : b.Ordered) : b.Distinct :=
  ⟨h.indices.nodup_keys, fun name docs hd => (h.documents name docs hd).nodup_keys⟩

/-- The order of the indices does not matter. -/
theorem Distinct.of_perm {c : WriteBatch} (h : c.Distinct) (hp : b.indices.Perm c.indices) : b.Distinct :=
  ⟨(hp.map Prod.fst).nodup_iff.2 h.indices, fun name docs hd =>
    h.documents name docs ((Dict.find?_perm hp h.indices name).symm.trans hd)⟩

theorem Distinct.get?_perm {c : WriteBatch} (h : c.Distinct) (hp : b.indices.Perm c.indices)
    (name id : String) : b.get? name id = c.get? name id := by
  rw [get?, get?, Dict.find?_perm hp h.indices]

theorem ordered_empty : ({} : WriteBatch).Ordered := ⟨List.Pairwise.nil, nofun⟩

theorem free_empty (name : String) : ({} : WriteBatch).Free name := nofun

theorem Ordered.push (h : b.Ordered) (index : String) (item : WriteItem) : (b.push index item).Ordered := by
  refine ⟨?_, fun name docs hf => ?_⟩
  · unfold WriteBatch.push
    exact h.indices.insert index _
  simp only [WriteBatch.push, Dict.find?_alter] at hf
  split at hf
  · obtain rfl := Option.some.inj hf
    refine Dict.Sorted.alter ?_ item.id _
    cases hd : b.indices.find? index with
    | none => exact List.Pairwise.nil
    | some known => exact h.documents index known hd
  · exact h.documents name docs hf

theorem Ordered.extend (h : b.Ordered) (index : String) (items : List WriteItem) :
    (b.extend index items).Ordered :=
  List.foldlRecOn _ _ h fun _ hb item _ => hb.push index item

/-- A write to a document that has one already is made one with it; other documents keep theirs. -/
theorem get?_push (b : WriteBatch) (index : String) (item : WriteItem) (name id : String) :
    (b.push index item).get? name id =
      if index = name ∧ item.id = id then
        some (((b.get? name id).map (·.combine item.action)).getD item.action)
      else b.get? name id := by
  simp only [get?, push, Dict.find?_alter]
  by_cases hn : index = name
  · subst hn
    by_cases hid : item.id = id
    · subst hid
      cases hd : b.indices.find? index with
      | none => simp [Dict.find?_alter]
      | some docs => cases ha : docs.find? item.id <;> simp [Dict.find?_alter, ha]
    · cases hd : b.indices.find? index <;> simp [Dict.find?_alter, hid]
  · simp [hn]

theorem Free.push (h : b.Free name) {item : WriteItem} (hi : item.action.IsFree) :
    (b.push name item).Free name := by
  intro id action ha
  rw [get?_push] at ha
  split at ha
  · cases hb : b.get? name id with
    | none =>
      rw [hb] at ha
      exact Option.some.inj ha ▸ hi
    | some first =>
      rw [hb] at ha
      exact Option.some.inj ha ▸ (h id first hb).combine _
  · exact h id action ha

/-- A pushed write comes after the earlier ones, as long as none asks for a stored document. -/
theorem Free.applyAt_push (h : b.Free name) (item : WriteItem) (id : String) (stored : Option Value) :
    (b.push name item).applyAt name id stored =
      if item.id = id then item.action.apply (b.applyAt name id stored) else b.applyAt name id stored := by
  unfold applyAt
  rw [get?_push]
  by_cases hid : item.id = id
  · cases hb : b.get? name id with
    | none => simp [hid]
    | some first => simpa [hid] using (h id first hb).apply_combine item.action stored
  · simp [hid]

/-- A group of writes acts as its writes one after the other. -/
theorem Free.applyAt_extend (h : b.Free name) {items : List WriteItem}
    (hi : ∀ item ∈ items, item.action.IsFree) (id : String) (stored : Option Value) :
    (b.extend name items).applyAt name id stored =
      WriteItem.applyAt id items (b.applyAt name id stored) := by
  induction items generalizing b with
  | nil => rfl
  | cons item rest ih =>
    obtain ⟨hitem, hrest⟩ := List.forall_mem_cons.1 hi
    rw [WriteItem.applyAt_cons, ← h.applyAt_push]
    exact ih (h.push hitem) hrest

theorem get?_extend_of_ne (b : WriteBatch) {index name : String} (hn : index ≠ name)
    (items : List WriteItem) (id : String) : (b.extend index items).get? name id = b.get? name id := by
  refine List.foldlRecOn (motive := fun b' : WriteBatch => b'.get? name id = b.get? name id) _ _ rfl
    fun b' hb item _ => ?_
  rw [get?_push, if_neg fun h => hn h.1, hb]

/-- Groups of writes for different indices do not meet in a batch. -/
theorem applyAt_foldl_extend {groups : Dict (List WriteItem)} (hn : groups.keys.Nodup)
    (hi : ∀ item ∈ (groups.find? name).getD [], item.action.IsFree) (h : b.Free name) (id : String)
    (stored : Option Value) :
    (groups.foldl (fun b e => b.extend e.1 e.2) b).applyAt name id stored =
      WriteItem.applyAt id ((groups.find? name).getD []) (b.applyAt name id stored) := by
  induction groups generalizing b with
  | nil => rfl
  | cons e rest ih =>
    obtain ⟨index, items⟩ := e
    obtain ⟨hout, hrest⟩ := List.nodup_cons.1 hn
    rw [List.foldl_cons]
    by_cases he : index = name
    · subst he
      have hnone : Dict.find? rest index = none := Dict.find?_eq_none_iff.2 hout
      have hfind : Dict.find? ((index, items) :: rest) index = some items := by simp [Dict.find?]
      rw [hfind] at hi ⊢
      -- later groups do not reach this index
      have hget (id : String) :
          (rest.foldl (fun b e => b.extend e.1 e.2) (b.extend index items)).get? index id =
            (b.extend index items).get? index id := by
        refine List.foldlRecOn
          (motive := fun b' : WriteBatch => b'.get? index id = (b.extend index items).get? index id) _ _ rfl
          fun b' hb e hm => ?_
        have hne : e.1 ≠ index := fun same => hout (same ▸ List.mem_map.2 ⟨e, hm, rfl⟩)
        exact (b'.get?_extend_of_ne hne e.2 id).trans hb
      rw [applyAt, hget]
      exact h.applyAt_extend hi id stored
    · have hsame (id : String) := b.get?_extend_of_ne he items id
      have hfind : Dict.find? ((index, items) :: rest) name = Dict.find? rest name := by simp [Dict.find?, he]
      rw [hfind] at hi ⊢
      have hfree : (b.extend index items).Free name := fun id action ha => h id action (hsame id ▸ ha)
      refine (ih hrest hi hfree).trans ?_
      rw [applyAt, hsame, applyAt]

end WriteBatch

namespace Flush

variable {s : Store}

/-- Requests in order have the effect of all their writes in order. -/
theorem gives_sendAll (index : String) (chunks : List (List WriteItem)) (h : s.Usable) :
    ∃ t, (sendAll index chunks).Gives s () t ∧ t.Usable ∧ ∀ name id, t.get? name id =
      if index = name then WriteItem.applyAt id chunks.flatten (s.get? name id) else s.get? name id := by
  induction chunks generalizing s with
  | nil => exact ⟨s, StoreM.gives_pure () s, h, fun name id => by simp⟩
  | cons chunk rest ih =>
    obtain ⟨t, hsend, ht, hget⟩ := ih (h.upserted index chunk)
    refine ⟨t, (StoreM.gives_bulkUpsert h index chunk).bind hsend, ht, fun name id => ?_⟩
    rw [hget, Store.get?_upserted, List.flatten_cons, WriteItem.applyAt_append]
    split <;> rfl

/-- One index is flushed as if by one request, and answers how many documents that holds. -/
theorem gives_flushIndex (limit : Nat) (index : String) (docs : Dict WriteAction) (h : s.Usable) :
    ∃ t, (flushIndex limit index docs).Gives s docs.length t ∧ t.Usable ∧ ∀ name id, t.get? name id =
      if index = name then WriteItem.applyAt id (docs.map fun e => ⟨e.1, e.2⟩) (s.get? name id)
      else s.get? name id := by
  obtain ⟨t, hsend, ht, hget⟩ :=
    gives_sendAll index (Bulk.ofList limit (docs.map fun e => ⟨e.1, e.2⟩)).chunks h
  have hlength : (Bulk.ofList limit (docs.map fun e => ⟨e.1, e.2⟩)).length = docs.length := by
    rw [Bulk.length_ofList, List.length_map]
  rw [Bulk.flatten_chunks_ofList] at hget
  rw [← hlength]
  exact ⟨t, hsend.bind (StoreM.gives_pure _ t), ht, hget⟩

/-- On a usable store every index gets its writes and tells how many they were. -/
theorem run_flushIndices (limit : Nat) {indices : Dict (Dict WriteAction)} (hn : indices.keys.Nodup)
    (h : s.Usable) :
    ∃ t, (flushIndices limit indices).run s = (indices.map fun e => (e.1, .ok e.2.length), t) ∧
      t.Usable ∧ ∀ name id, t.get? name id =
        WriteItem.applyAt id (((indices.find? name).getD []).map fun e => ⟨e.1, e.2⟩) (s.get? name id) := by
  induction indices generalizing s with
  | nil => exact ⟨s, rfl, h, fun name id => by simp⟩
  | cons e rest ih =>
    obtain ⟨index, docs⟩ := e
    obtain ⟨hout, hrest⟩ := List.nodup_cons.1 hn
    obtain ⟨t, hflush, ht, hget⟩ := gives_flushIndex limit index docs h
    obtain ⟨u, hrun, hu, hgetu⟩ := ih hrest ht
    refine ⟨u, ?_, hu, fun name id => ?_⟩
    · have hfirst : Session.run (do
          let written ← (flushIndex limit index docs).run
          return (index, written)) s = ((index, .ok docs.length), t) := by
        rw [Session.run_bind, hflush]
        rfl
      rw [flushIndices, List.map_cons, Session.run_all_cons]
      simp only [hfirst]
      rw [flushIndices] at hrun
      rw [hrun]
      rfl
    · rw [hgetu, hget, Dict.find?]
      by_cases he : index = name
      · subst he
        have hnone : Dict.find? rest index = none := Dict.find?_eq_none_iff.2 hout
        simp [hnone]
      · simp [he]

theorem report_of_ok (indices : Dict (Dict WriteAction)) :
    report (indices.map fun e => (e.1, .ok e.2.length)) =
      .ok { written := indices.map fun e => (e.1, e.2.length) } := by
  have hok : firstError ((indices.map fun e => (e.1, (.ok e.2.length : Except StoreError Nat))).map Prod.snd) =
      .ok () := by
    rw [List.map_map]
    exact firstError_eq_ok_iff.2 (List.forall_mem_map.2 fun e _ => ⟨e.2.length, rfl⟩)
  unfold report
  rw [hok, List.map_map]
  rfl

/-- A flush succeeds and leaves what the batch makes of every document. -/
theorem run_flush (limit : Nat) {b : WriteBatch} (hb : b.Distinct) (h : s.Usable) :
    ∃ t, (flush limit b).run s = (.ok { written := b.indices.map fun e => (e.1, e.2.length) }, t) ∧
      t.Usable ∧ ∀ name id, t.get? name id = b.applyAt name id (s.get? name id) := by
  obtain ⟨t, hrun, ht, hget⟩ := run_flushIndices limit hb.indices h
  refine ⟨t, ?_, ht, fun name id => ?_⟩
  · unfold flush
    rw [Session.run_bind, hrun, ← report_of_ok]
    rfl
  · rw [hget, WriteBatch.applyAt, WriteBatch.get?]
    cases hd : b.indices.find? name with
    | none => rfl
    | some docs =>
      have hmap := WriteItem.applyAt_map id (s.get? name id) (hb.documents name docs hd)
        fun _ action => action
      refine hmap.trans ?_
      simp only [Option.bind_some]
      cases docs.find? id <;> rfl

end Flush
end ChainIndex
