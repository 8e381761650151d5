import ChainIndex.Proofs.Indexer.Batch
import Mathlib.Data.List.Dedup
import Mathlib.Data.List.Perm.Lattice

/-!
Batches against their writes executed one by one. Making the writes to a document one, cutting them
into requests and flushing the indices in any order all leave the same documents, as long as no
absent document is updated before it is upserted.
-/
namespace ChainIndex

namespace WriteBatch

variable (writes : List (String × WriteItem)) (name id : String)

def ofWrites : WriteBatch := writes.foldl (fun b w => b.push w.1 w.2) {}

def actionsAt : List WriteAction :=
  (writes.filter fun w => w.1 = name ∧ w.2.id = id).map (·.2.action)

def idsAt : List String := (writes.filter fun w => w.1 = name).map (·.2.id)

theorem ordered_ofWrites : (ofWrites writes).Ordered :=
  List.foldlRecOn _ _ ordered_empty fun _ hb w _ => hb.push w.1 w.2

/-- The write of a batch to a document is all pushed writes to it made one, in order. -/
theorem get?_foldl_push (b : WriteBatch) :
    (writes.foldl (fun b w => b.push w.1 w.2) b).get? name id =
      WriteAction.combineAll ((b.get? name id).toList ++ actionsAt writes name id) := by
  induction writes generalizing b with
  | nil => cases hb : b.get? name id <;> simp [actionsAt, WriteAction.combineAll, hb]
  | cons w rest ih =>
    rw [List.foldl_cons, ih, get?_push]
    by_cases hw : w.1 = name ∧ w.2.id = id
    · cases hb : b.get? name id <;> simp [actionsAt, WriteAction.combineAll, hw]
    · simp [actionsAt, hw]

/-- The batch holds the writes to a document made one. -/
theorem get?_ofWrites :
    (ofWrites writes).get? name id = WriteAction.combineAll (actionsAt writes name id) :=
  get?_foldl_push writes name id {}

def keys (b : WriteBatch) : List (String × String) := b.indices.flatMap fun e => e.2.keys.map (e.1, ·)

theorem extend_eq_foldl_push (b : WriteBatch) (items : List WriteItem) :
    b.extend name items = (items.map (name, ·)).foldl (fun b w => b.push w.1 w.2) b := by
  rw [List.foldl_map]
  rfl

theorem get?_extend (b : WriteBatch) (items : List WriteItem) :
    (b.extend name items).get? name id =
      WriteAction.combineAll ((b.get? name id).toList ++ WriteItem.actionsOf id items) := by
  rw [extend_eq_foldl_push, get?_foldl_push]
  congr 2
  simp [actionsAt, WriteItem.actionsOf, List.filter_map, Function.comp_def]

/-- A batch of groups holds the writes of a document's group to it, made one. -/
theorem get?_foldl_extend {groups : Dict (List WriteItem)} (hn : groups.keys.Nodup) (b : WriteBatch) :
    (groups.foldl (fun b e => b.extend e.1 e.2) b).get? name id =
      WriteAction.combineAll
        ((b.get? name id).toList ++ WriteItem.actionsOf id ((groups.find? name).getD [])) := by
  induction groups generalizing b with
  | nil => exact ((congrArg _ (List.append_nil _)).trans (WriteAction.combineAll_toList _)).symm
  | cons e rest ih =>
    obtain ⟨index, items⟩ := e
    obtain ⟨hout, hrest⟩ := List.nodup_cons.1 hn
    rw [List.foldl_cons, ih hrest, Dict.find?]
    by_cases he : index = name
    · subst he
      have hnone : Dict.find? rest index = none := Dict.find?_eq_none_iff.2 hout
      rw [get?_extend, hnone, if_pos rfl]
      exact (congrArg _ (List.append_nil _)).trans (WriteAction.combineAll_toList _)
    · rw [get?_extend_of_ne b he, if_neg he]

variable {writes name id}

theorem mem_keys {b : WriteBatch} (hb : b.Ordered) : (name, id) ∈ b.keys ↔ (b.get? name id).isSome := by
  simp only [keys, get?, List.mem_flatMap, List.mem_map, Prod.mk.injEq, Option.isSome_bind]
  constructor
  · rintro ⟨⟨index, docs⟩, hmem, other, hother, rfl, rfl⟩
    rw [hb.indices.find?_of_mem hmem]
    exact Dict.has_iff.2 hother
  · intro h
    cases hd : b.indices.find? name with
    | none => simp [hd] at h
    | some docs =>
      have hhas : docs.has id = true := by simpa [hd, Dict.has] using h
      exact ⟨(name, docs), Dict.mem_of_find? hd, id, Dict.has_iff.1 hhas, rfl, rfl⟩

theorem Ordered.nodup_keys {b : WriteBatch} (hb : b.Ordered) : b.keys.Nodup := by
  refine List.nodup_flatMap.2 ⟨fun e he => ?_, ?_⟩
  · have hdocs := hb.documents e.1 e.2 (hb.indices.find?_of_mem he)
    exact hdocs.nodup_keys.map fun _ _ same => (Prod.mk.inj same).2
  · refine List.Pairwise.imp (fun {first second} hlt => ?_) hb.indices
    intro key hfirst hsecond
    obtain ⟨_, -, rfl⟩ := List.mem_map.1 hfirst
    obtain ⟨_, -, hkey⟩ := List.mem_map.1 hsecond
    exact String.lt_irrefl first.1 ((Prod.mk.inj hkey).1 ▸ hlt)

theorem actionsAt_ne_nil_iff : actionsAt writes name id ≠ [] ↔ id ∈ idsAt writes name := by
  simp [actionsAt, idsAt, and_comm]

theorem isSome_get?_ofWrites : ((ofWrites writes).get? name id).isSome ↔ id ∈ idsAt writes name := by
  rw [get?_ofWrites, ← actionsAt_ne_nil_iff]
  cases actionsAt writes name id <;> simp [WriteAction.combineAll]

/-- The batch writes the documents that are written, once each. -/
theorem keys_ofWrites (writes : List (String × WriteItem)) :
    (ofWrites writes).keys.Perm (writes.map fun w => (w.1, w.2.id)).dedup := by
  have hordered := ordered_ofWrites writes
  refine (List.perm_ext_iff_of_nodup hordered.nodup_keys (List.nodup_dedup _)).2 fun ⟨name, id⟩ => ?_
  rw [mem_keys hordered, isSome_get?_ofWrites]
  simp [idsAt]

/-- A batch has the indices that were written to. -/
theorem isSome_find?_indices (writes : List (String × WriteItem)) (b : WriteBatch) (name : String) :
    ((writes.foldl (fun b w => b.push w.1 w.2) b).indices.find? name).isSome ↔
      (b.indices.find? name).isSome ∨ name ∈ writes.map Prod.fst := by
  induction writes generalizing b with
  | nil => simp
  | cons w rest ih =>
    rw [List.foldl_cons, ih, push, Dict.find?_alter, List.map_cons, List.mem_cons]
    by_cases hn : w.1 = name
    · simp [hn]
    · simp [hn, Ne.symm hn]

/-- How many documents of an index are written. -/
theorem length_ofWrites (writes : List (String × WriteItem)) (name : String) :
    ((ofWrites writes).indices.find? name).map List.length =
      if name ∈ writes.map Prod.fst then some (idsAt writes name).dedup.length else none := by
  have hpushed : ((ofWrites writes).indices.find? name).isSome ↔ name ∈ writes.map Prod.fst :=
    (isSome_find?_indices writes {} name).trans (by simp)
  cases hd : (ofWrites writes).indices.find? name with
  | none =>
    rw [hd] at hpushed
    rw [if_neg fun hn => absurd (hpushed.2 hn) (by simp)]
    rfl
  | some docs =>
    have hname : name ∈ writes.map Prod.fst := hpushed.1 (Option.isSome_iff_exists.2 ⟨docs, hd⟩)
    have hsorted := (ordered_ofWrites writes).documents name docs hd
    have hperm : docs.keys.Perm (idsAt writes name).dedup := by
      refine (List.perm_ext_iff_of_nodup hsorted.nodup_keys (List.nodup_dedup _)).2 fun id => ?_
      rw [List.mem_dedup, ← isSome_get?_ofWrites, get?, hd, ← Dict.has_iff]
      rfl
    rw [if_pos hname, ← hperm.length_eq, Dict.keys, List.length_map]
    rfl

/-- A batch does to a document what its writes do one after the other. -/
theorem applyAt_ofWrites {stored : Option Value}
    (h : stored = none → ¬WriteAction.UpsertAfterUpdate (actionsAt writes name id)) :
    (ofWrites writes).applyAt name id stored = WriteAction.applyAll (actionsAt writes name id) stored := by
  rw [applyAt, get?_ofWrites]
  exact WriteAction.apply_combineAll h

end WriteBatch

def StoreCall.writes : StoreCall → List (String × WriteItem)
  | bulkUpsert index items => items.map (index, ·)
  | _ => []

namespace Session

variable {α β : Type} {s t : Store}

def sent : Session α → Store → List (String × WriteItem)
  | done _, _ => []
  | call c next, s => c.writes ++ (next (s.answer c).1).sent (s.answer c).2

theorem sent_bind (p : Session α) (f : α → Session β) (s : Store) :
    (p >>= f).sent s = p.sent s ++ (f (p.run s).1).sent (p.run s).2 := by
  induction p generalizing s with
  | done x => rfl
  | call c next ih => exact (congrArg (c.writes ++ ·) (ih _ _)).trans (List.append_assoc _ _ _).symm

theorem sent_bind_done (p : Session α) (g : α → β) (s : Store) :
    (p >>= fun x => done (g x)).sent s = p.sent s :=
  (sent_bind p _ s).trans (List.append_nil _)

theorem sent_all_cons (p : Session α) (rest : List (Session α)) (s : Store) :
    (all (p :: rest)).sent s = p.sent s ++ (all rest).sent (p.run s).2 := by
  refine (sent_bind p _ s).trans (congrArg (p.sent s ++ ·) ?_)
  exact sent_bind_done (all rest) _ _

end Session

theorem StoreM.Gives.sent_bind {α β : Type} {s t : Store} {p : StoreM α} {x : α} (h : p.Gives s x t)
    (f : α → StoreM β) :
    Session.sent (p >>= f).run s = Session.sent p.run s ++ Session.sent (f x).run t := by
  rw [ExceptT.run_bind, Session.sent_bind, h]

namespace Flush

variable {s : Store}

/-- Executes every write as a request of its own. -/
def writeEach : List (String × WriteItem) → StoreM Unit
  | [] => pure ()
  | (index, item) :: rest => do
    StoreM.bulkUpsert index [item]
    writeEach rest

/-- Writes sent one by one are done in order. -/
theorem gives_writeEach (writes : List (String × WriteItem)) (h : s.Usable) :
    ∃ t, (writeEach writes).Gives s () t ∧ t.Usable ∧ ∀ name id, t.get? name id =
      WriteAction.applyAll (WriteBatch.actionsAt writes name id) (s.get? name id) := by
  induction writes generalizing s with
  | nil => exact ⟨s, StoreM.gives_pure () s, h, fun _ _ => rfl⟩
  | cons w rest ih =>
    obtain ⟨index, item⟩ := w
    obtain ⟨t, hrest, ht, hget⟩ := ih (h.upserted index [item])
    refine ⟨t, (StoreM.gives_bulkUpsert h index [item]).bind hrest, ht, fun name id => ?_⟩
    rw [hget, Store.get?_upserted]
    by_cases hn : index = name
    · by_cases hid : item.id = id <;> simp [WriteBatch.actionsAt, WriteAction.applyAll, hn, hid]
    · simp [WriteBatch.actionsAt, hn]

theorem sent_sendAll (index : String) (chunks : List (List WriteItem)) (h : s.Usable) :
    Session.sent (sendAll index chunks).run s = chunks.flatten.map (index, ·) := by
  induction chunks generalizing s with
  | nil => rfl
  | cons chunk rest ih =>
    have hsend := (StoreM.gives_bulkUpsert h index chunk).sent_bind fun _ => sendAll index rest
    rw [sendAll, hsend, ih (h.upserted index chunk), List.flatten_cons, List.map_append]
    exact congrArg (· ++ _) (List.append_nil _)

/-- The writes to an index go out once each, in whatever requests. -/
theorem sent_flushIndex (limit : Nat) (index : String) (docs : Dict WriteAction) (h : s.Usable) :
    Session.sent (flushIndex limit index docs).run s = docs.map fun e => (index, ⟨e.1, e.2⟩) := by
  obtain ⟨t, hsend, -⟩ :=
    gives_sendAll index (Bulk.ofList limit (docs.map fun e => ⟨e.1, e.2⟩)).chunks h
  refine (hsend.sent_bind _).trans ?_
  rw [sent_sendAll index _ h, Bulk.flatten_chunks_ofList, List.map_map]
  exact List.append_nil _

/-- A flush sends each write of the batch once. -/
theorem sent_flushIndices (limit : Nat) (indices : Dict (Dict WriteAction)) (h : s.Usable) :
    (flushIndices limit indices).sent s =
      indices.flatMap fun e => e.2.map fun d => (e.1, ⟨d.1, d.2⟩) := by
  induction indices generalizing s with
  | nil => rfl
  | cons e rest ih =>
    obtain ⟨index, docs⟩ := e
    obtain ⟨t, hflush, ht, -⟩ := gives_flushIndex limit index docs h
    have hfirst : Session.sent (do
        let written ← (flushIndex limit index docs).run
        return (index, written)) s = docs.map fun d => (index, ⟨d.1, d.2⟩) :=
      (Session.sent_bind_done _ _ s).trans (sent_flushIndex limit index docs h)
    have hstore : (Session.run (do
        let written ← (flushIndex limit index docs).run
        return (index, written)) s).2 = t := by
      rw [Session.run_bind, hflush]
      rfl
    rw [flushIndices, List.map_cons, Session.sent_all_cons, List.flatMap_cons, ← ih ht]
    simp only [hfirst, hstore]
    rfl

theorem sent_flush (limit : Nat) (b : WriteBatch) (h : s.Usable) :
    ((flush limit b).sent s).map (fun w => (w.1, w.2.id)) = b.keys := by
  refine (congrArg (List.map _) (Session.sent_bind_done _ _ s)).trans ?_
  rw [sent_flushIndices limit b.indices h, List.map_flatMap]
  simp [WriteBatch.keys, Dict.keys, Function.comp_def]

/-- What is written to a document does not depend on how the writes are batched, cut into requests
and ordered by index, and every document is written once. -/
theorem flush_eq_writeEach (h : s.Usable) (writes : List (String × WriteItem)) (limit : Nat)
    {b : WriteBatch} (hb : b.indices.Perm (WriteBatch.ofWrites writes).indices)
    (hlate : ∀ name id, s.get? name id = none →
      ¬WriteAction.UpsertAfterUpdate (WriteBatch.actionsAt writes name id)) :
    ∃ report t u, (flush limit b).run s = (.ok report, t) ∧ (writeEach writes).Gives s () u ∧
      (∀ name, t.index name = u.index name) ∧
      (((flush limit b).sent s).map fun w => (w.1, w.2.id)).Perm
        (writes.map fun w => (w.1, w.2.id)).dedup ∧
      ∀ name, report.written.find? name =
        if name ∈ writes.map Prod.fst then some (WriteBatch.idsAt writes name).dedup.length else none := by
  have hdistinct := (WriteBatch.ordered_ofWrites writes).distinct
  obtain ⟨t, hrun, ht, hget⟩ := run_flush limit (hdistinct.of_perm hb) h
  obtain ⟨u, heach, hu, hgetu⟩ := gives_writeEach writes h
  refine ⟨_, t, u, hrun, heach, fun name => ?_, ?_, fun name => ?_⟩
  · refine hu.index_eq ht fun id => ?_
    rw [hget, hgetu, ← WriteBatch.applyAt_ofWrites (hlate name id), WriteBatch.applyAt,
      hdistinct.get?_perm hb, WriteBatch.applyAt]
  · rw [sent_flush limit b h]
    exact (hb.flatMap_right _).trans (WriteBatch.keys_ofWrites writes)
  · rw [← WriteBatch.length_ofWrites, ← Dict.find?_perm hb hdistinct.indices]
    exact Dict.find?_map b.indices (fun _ docs => List.length docs) name

/-- A token is updated and then upserted, another replaced and then updated, and a block is new. -/
def mixedWrites : List (String × WriteItem) :=
  [(Index.tokens, ⟨"T", .update [.unset "a"]⟩), (Index.blocks, ⟨"B", .upsert []⟩),
    (Index.tokens, ⟨"T", .upsert [.unset "b"]⟩), (Index.tokens, ⟨"N", .overwrite .empty⟩),
    (Index.tokens, ⟨"N", .update [.unset "c"]⟩)]

/-- With the first token stored, and the indices flushed the other way round in requests of one write
each. -/
theorem flush_eq_writeEach_mixed :
    ∃ report t u, (flush 0 ⟨(WriteBatch.ofWrites mixedWrites).indices.reverse⟩).run
        ((Store.withPageSize 1).put Index.tokens "T" .empty) = (.ok report, t) ∧
      (writeEach mixedWrites).Gives ((Store.withPageSize 1).put Index.tokens "T" .empty) () u ∧
      (∀ name, t.index name = u.index name) ∧ report.written.find? Index.tokens = some 2 := by
  have husable : ((Store.withPageSize 1).put Index.tokens "T" .empty).Usable :=
    (Store.usable_withPageSize 1).setIndex _ (List.pairwise_singleton _ _)
  have hlate (name id : String)
      (habsent : ((Store.withPageSize 1).put Index.tokens "T" .empty).get? name id = none) :
      ¬WriteAction.UpsertAfterUpdate (WriteBatch.actionsAt mixedWrites name id) := by
    rintro ⟨ms, more, upserted, rest, hactions⟩
    have hne : Index.blocks ≠ Index.tokens := by decide
    by_cases hname : Index.tokens = name
    · subst hname
      by_cases hstored : "T" = id
      · subst hstored
        cases habsent
      · by_cases hreplaced : "N" = id <;>
          simp [WriteBatch.actionsAt, mixedWrites, hne, hstored, hreplaced] at hactions
    · by_cases hblock : Index.blocks = name ∧ "B" = id <;>
        simp [WriteBatch.actionsAt, mixedWrites, hname, hblock] at hactions
  obtain ⟨report, t, u, hrun, heach, hindex, -, hcounts⟩ :=
    flush_eq_writeEach husable mixedWrites 0 (List.reverse_perm _) hlate
  refine ⟨report, t, u, hrun, heach, hindex, (hcounts _).trans ?_⟩
  decide

end Flush
end ChainIndex
