import ChainIndex.Proofs.Counters
import ChainIndex.Proofs.Indexer.Attempt

/-!
Saves while indices are unavailable. A save whose look-ups fail changes nothing. Any other writes all that it
writes to the available indices, and it succeeds exactly if these are all that it writes to; else it ends in the
error of the first one that is not. Only a save that succeeds is counted.
-/
namespace ChainIndex

variable {s : Store} {down : List String}

namespace Counters

theorem complete_start : (start : Counters IndexerStat).Complete :=
  complete_start_of_all fun kind => by cases kind <;> decide

/-- A saved block and its documents are counted. -/
theorem Complete.get_saved {c : Counters IndexerStat} (h : c.Complete) (written skipped : UInt64) :
    let counted := ((c.increment .blocksSaved).add .documentsWritten written).add .recordsSkipped skipped
    counted.get .blocksSaved = c.get .blocksSaved + 1 ∧
      counted.get .documentsWritten = c.get .documentsWritten + written := by
  have hsaved : (c.increment .blocksSaved).Complete := h.add _ _
  have hwritten := hsaved.add .documentsWritten written
  constructor
  · rw [hwritten.get_add, hsaved.get_add, increment, h.get_add]
    rfl
  · rw [hwritten.get_add, hsaved.get_add, increment, h.get_add]
    rfl

end Counters

namespace WriteBatch

/-- No index of a batch is without writes. -/
theorem documents_ne_nil {writes : List (String × WriteItem)} {e : String × Dict WriteAction}
    (he : e ∈ (ofWrites writes).indices) : e.2 ≠ [] := by
  have hordered := ordered_ofWrites writes
  have hfind := hordered.indices.find?_of_mem he
  have hname : e.1 ∈ writes.map Prod.fst := by
    have hsome := (isSome_find?_indices writes {} e.1).1 (Option.isSome_of_eq_some hfind)
    simpa using hsome
  obtain ⟨w, hw, hindex⟩ := List.mem_map.1 hname
  have hid : w.2.id ∈ idsAt writes e.1 := List.mem_map.2 ⟨w, List.mem_filter.2 ⟨hw, decide_eq_true hindex⟩, rfl⟩
  rintro hnil
  have hget := isSome_get?_ofWrites.2 hid
  rw [get?, hfind, hnil] at hget
  cases hget

theorem mem_keys_indices (writes : List (String × WriteItem)) (name : String) :
    name ∈ (ofWrites writes).indices.keys ↔ name ∈ writes.map Prod.fst := by
  rw [← Dict.has_iff, Dict.has]
  exact (isSome_find?_indices writes {} name).trans (by simp)

end WriteBatch

namespace Flush

theorem stops_sendAll (index : String) {chunks : List (List WriteItem)} (h : chunks ≠ []) :
    (sendAll index chunks).StopsWithout index := by
  cases chunks with
  | nil => exact absurd rfl h
  | cons chunk rest => exact (StoreM.stops_bulkUpsert index chunk).bind _

theorem stops_flushIndex (limit : Nat) (index : String) {docs : Dict WriteAction} (h : docs ≠ []) :
    (flushIndex limit index docs).StopsWithout index := by
  refine (stops_sendAll index fun hnil => h ?_).bind _
  have hitems := Bulk.flatten_chunks_ofList limit (docs.map fun e => ⟨e.1, e.2⟩)
  rw [hnil] at hitems
  exact List.map_eq_nil_iff.1 hitems.symm

theorem answers_flushIndex (limit : Nat) (index : String) {docs : Dict WriteAction} (h : docs ≠ [])
    (down : List String) :
    Session.Answers down (flushIndex limit index docs).run (Store.reply down index docs.length) := by
  refine (stops_flushIndex limit index h).answers (within_flushIndex limit index docs) (fun s hs => ?_) down
  obtain ⟨t, hflush, -⟩ := gives_flushIndex limit index docs hs
  exact ⟨t, hflush⟩

def outcome (down : List String) (b : WriteBatch) : Except StoreError FlushReport := do
  Store.verdict down b.indices.keys
  return { written := b.indices.map fun e => (e.1, e.2.length) }

/-- A flush answers by the first unavailable index that it has writes for. -/
theorem answers_flush (limit : Nat) {b : WriteBatch} (hb : ∀ e ∈ b.indices, e.2 ≠ []) (down : List String) :
    Session.Answers down (flush limit b) (outcome down b) := by
  have hindices := Session.answers_all b.indices fun e he =>
    (answers_flushIndex limit e.1 (hb e he) down).map fun written => (e.1, written)
  have hreport := hindices.map report
  have hfirst : firstError ((b.indices.map fun e => (e.1, Store.reply down e.1 e.2.length)).map Prod.snd) =
      Store.verdict down b.indices.keys := by
    rw [List.map_map]
    exact Store.firstError_reply down Prod.fst (fun e => e.2.length) b.indices
  have houtcome : report (b.indices.map fun e => (e.1, Store.reply down e.1 e.2.length)) = outcome down b := by
    rw [report, hfirst, outcome]
    cases hv : Store.verdict down b.indices.keys with
    | error e => rfl
    | ok u =>
      have hup := Store.verdict_eq_ok_iff.1 hv
      refine congrArg (fun written : Dict Nat => Except.ok (FlushReport.mk written [])) ?_
      rw [List.map_map]
      refine List.map_congr_left fun e he => ?_
      have hindex : e.1 ∉ down := hup e.1 (List.mem_map.2 ⟨e, he, rfl⟩)
      rw [Function.comp_apply, Store.reply, if_neg hindex]
      rfl
  exact houtcome ▸ hreport

end Flush

namespace Indexer

variable (ix : Indexer) (block : Block)

/-- The writes of a block with their indices, by what the store answers to its look-ups. -/
def writesOn (s : Store) : List (String × WriteItem) :=
  (ix.groups block (TokenWrites.itemsOn (ix.accumulate block) s)).flatMap fun e => e.2.map (e.1, ·)

theorem batchOn_eq_ofWrites (s : Store) : ix.batchOn block s = WriteBatch.ofWrites (ix.writesOn block s) := by
  rw [batchOn, batch_eq_foldl, WriteBatch.ofWrites, writesOn, List.foldl_flatMap]
  simp only [WriteBatch.extend_eq_foldl_push]

/-- How many documents a successful flush of the batch reports. -/
theorem total_eq (s : Store) :
    FlushReport.total { written := (ix.batchOn block s).indices.map fun e => (e.1, e.2.length) } =
      ((ix.writesOn block s).map fun w => (w.1, w.2.id)).dedup.length := by
  have hperm := WriteBatch.keys_ofWrites (ix.writesOn block s)
  rw [← hperm.length_eq, ← batchOn_eq_ofWrites, FlushReport.total, ← List.sum_eq_foldl]
  simp [WriteBatch.keys, Dict.keys, Dict.values, List.length_flatMap, Function.comp_def]

theorem saveBlock_fst (s : Store) :
    (ix.saveBlock block s).1 = ((ix.save block).run s).1.mapError IndexerError.store := rfl

/-- What a save answers, if its look-ups do not fail. -/
theorem saveBlock_answer (h : s.Usable)
    (hup : Index.tokens ∈ down → ¬TokenWrites.NeedsLookup (ix.accumulate block)) :
    (ix.saveBlock block (s.withUnavailable down)).1 =
      (Flush.outcome down (ix.batchOn block s)).mapError IndexerError.store := by
  rw [saveBlock_fst, ix.run_save_of_available block h hup]
  refine congrArg (Except.mapError IndexerError.store) ?_
  refine Flush.answers_flush _ ?_ down s h
  rw [batchOn_eq_ofWrites]
  exact fun e he => WriteBatch.documents_ne_nil he

/-- Only a save that succeeds is counted. -/
theorem stats_saveBlock (s : Store) :
    (ix.saveBlock block s).2.1.stats = match (ix.saveBlock block s).1 with
      | .ok report => ((ix.stats.increment .blocksSaved).add .documentsWritten report.total.toUInt64)
          |>.add .recordsSkipped report.skipped.length.toUInt64
      | .error _ => ix.stats := by
  unfold saveBlock countSaved
  dsimp only
  cases ((ix.save block).run s).1 <;> rfl

theorem complete_saveBlock (h : ix.stats.Complete) (s : Store) : (ix.saveBlock block s).2.1.stats.Complete := by
  rw [stats_saveBlock]
  split
  · exact ((h.add _ _).add _ _).add _ _
  · exact h

theorem complete_revertBlock (h : ix.stats.Complete) (header : Header) (body : Body) (s : Store) :
    (ix.revertBlock header body s).2.1.stats.Complete := by
  unfold revertBlock
  dsimp only
  split
  · exact h.add _ _
  · exact h

/-- The indices that a block writes to. -/
theorem mem_keys_batchOn (s : Store) (name : String) :
    name ∈ (ix.batchOn block s).indices.keys ↔ ∃ w ∈ ix.writesOn block s, w.1 = name := by
  rw [batchOn_eq_ofWrites, WriteBatch.mem_keys_indices, List.mem_map]

theorem pairwise_keys_batchOn (s : Store) : (ix.batchOn block s).indices.keys.Pairwise (· < ·) :=
  List.pairwise_map.2 (ix.ordered_batch block _).indices

section Available

variable {ix block} (h : s.Usable) (hup : Index.tokens ∈ down → ¬TokenWrites.NeedsLookup (ix.accumulate block))

include h hup

theorem index_savedPartly_of_mem {name : String} (hd : name ∈ down) :
    (ix.savedPartly block down s).index name = s.index name := by
  refine h.index_eq (ix.usable_savedPartly block h down) fun id => ?_
  rw [ix.get?_savedPartly_of_available block h hup, if_pos hd]

theorem index_savedPartly_of_not_mem {name : String} (hd : name ∉ down) :
    (ix.savedPartly block down s).index name = (ix.saved block s).index name := by
  refine (ix.usable_saved block h).index_eq (ix.usable_savedPartly block h down) fun id => ?_
  rw [ix.get?_savedPartly_of_available block h hup, if_neg hd, ix.saved_eq_savedPartly block h,
    ix.get?_savedPartly_of_available block h fun hnil => absurd hnil List.not_mem_nil, if_neg List.not_mem_nil]

theorem saveBlock_eq_ok (hall : ∀ w ∈ ix.writesOn block s, w.1 ∉ down) :
    (ix.saveBlock block (s.withUnavailable down)).1 =
      .ok { written := (ix.batchOn block s).indices.map fun e => (e.1, e.2.length) } := by
  have hverdict : Store.verdict down (ix.batchOn block s).indices.keys = .ok () := by
    refine Store.verdict_eq_ok_iff.2 fun name hn => ?_
    obtain ⟨w, hw, rfl⟩ := (ix.mem_keys_batchOn block s name).1 hn
    exact hall w hw
  rw [ix.saveBlock_answer block h hup, Flush.outcome, hverdict]
  rfl

/-- The alphabetically first index that a save misses is the one that it reports. -/
theorem saveBlock_eq_error (hmissing : ∃ w ∈ ix.writesOn block s, w.1 ∈ down) :
    ∃ w ∈ ix.writesOn block s, w.1 ∈ down ∧
      (∀ other ∈ ix.writesOn block s, other.1 ∈ down → w.1 ≤ other.1) ∧
      (ix.saveBlock block (s.withUnavailable down)).1 = .error (.store (Store.unavailableError w.1)) := by
  have hkeys := ix.mem_keys_batchOn block s
  obtain ⟨name, hn, hd, hleast, hverdict⟩ := Store.verdict_of_pairwise (ix.pairwise_keys_batchOn block s) <| by
    obtain ⟨w, hw, hd⟩ := hmissing
    exact ⟨w.1, (hkeys w.1).2 ⟨w, hw, rfl⟩, hd⟩
  obtain ⟨w, hw, rfl⟩ := (hkeys name).1 hn
  refine ⟨w, hw, hd, fun other ho => hleast _ ((hkeys _).2 ⟨other, ho, rfl⟩), ?_⟩
  rw [ix.saveBlock_answer block h hup, Flush.outcome, hverdict]
  rfl

/-- A report counts documents, not writes. -/
theorem total_of_saveBlock_eq_ok {report : FlushReport}
    (hok : (ix.saveBlock block (s.withUnavailable down)).1 = .ok report) :
    report.total = ((ix.writesOn block s).map fun w => (w.1, w.2.id)).dedup.length := by
  have hall : ∀ w ∈ ix.writesOn block s, w.1 ∉ down := by
    intro w hw hd
    obtain ⟨_, -, -, -, herror⟩ := saveBlock_eq_error h hup ⟨w, hw, hd⟩
    cases hok.symm.trans herror
  cases hok.symm.trans (saveBlock_eq_ok h hup hall)
  exact ix.total_eq block s

end Available

/-- A save whose look-ups fail changes no document. Any other leaves the unavailable indices alone and makes of each
available one what a save without failures does. It succeeds exactly if it writes to no unavailable index, and ends
in the error of the alphabetically first of them else. A save is counted if it succeeds, with the documents that it
writes. -/
theorem saveBlock_all_or_available (hcounts : ix.stats.Complete) (h : s.Usable) (down : List String) :
    let answer := ix.saveBlock block (s.withUnavailable down)
    let once := ix.saveBlock block s
    let writes := ix.writesOn block s
    let fails := Index.tokens ∈ down ∧ TokenWrites.NeedsLookup (ix.accumulate block)
    (fails → answer.1 = .error (.store (Store.unavailableError Index.tokens)) ∧
        ∀ name, answer.2.2.index name = s.index name) ∧
      (¬fails →
        (∀ name ∈ down, answer.2.2.index name = s.index name) ∧
        (∀ name, name ∉ down → answer.2.2.index name = once.2.2.index name) ∧
        ((∃ report, answer.1 = .ok report) ↔ ∀ w ∈ writes, w.1 ∉ down) ∧
        ((∃ w ∈ writes, w.1 ∈ down) → ∃ w ∈ writes, w.1 ∈ down ∧
          (∀ other ∈ writes, other.1 ∈ down → w.1 ≤ other.1) ∧
          answer.1 = .error (.store (Store.unavailableError w.1)))) ∧
      (∀ e, answer.1 = .error e → answer.2.1.stats = ix.stats) ∧
      ∀ report, answer.1 = .ok report →
        answer.2.1.stats.get .blocksSaved = ix.stats.get .blocksSaved + 1 ∧
        answer.2.1.stats.get .documentsWritten = ix.stats.get .documentsWritten +
          ((writes.map fun w => (w.1, w.2.id)).dedup.length).toUInt64 := by
  intro answer once writes fails
  have hstats := ix.stats_saveBlock block (s.withUnavailable down)
  have hindex (name : String) : answer.2.2.index name = (ix.savedPartly block down s).index name := rfl
  have hlookup (hfails : fails) : answer.1 = .error (.store (Store.unavailableError Index.tokens)) := by
    have hrun := ix.saveBlock_fst block (s.withUnavailable down)
    rw [ix.run_save_of_lookup block hfails.1 hfails.2] at hrun
    exact hrun
  refine ⟨fun hfails => ⟨hlookup hfails, fun name => ?_⟩, fun hup => ?_, fun e he => ?_, fun report hok => ?_⟩
  · rw [hindex, ix.savedPartly_of_lookup block h hfails.1 hfails.2]
  · have hgiven := not_and.1 hup
    refine ⟨fun name hd => (hindex name).trans (index_savedPartly_of_mem h hgiven hd),
      fun name hd => (hindex name).trans (index_savedPartly_of_not_mem h hgiven hd), ⟨?_, ?_⟩,
      saveBlock_eq_error h hgiven⟩
    · rintro ⟨report, hok⟩ w hw hd
      obtain ⟨_, -, -, -, herror⟩ := saveBlock_eq_error h hgiven ⟨w, hw, hd⟩
      cases hok.symm.trans herror
    · exact fun hall => ⟨_, saveBlock_eq_ok h hgiven hall⟩
  · rw [he] at hstats
    exact hstats
  · have hup : ¬fails := fun hfails => by cases hok.symm.trans (hlookup hfails)
    have htotal := total_of_saveBlock_eq_ok h (not_and.1 hup) hok
    obtain ⟨hblocks, hdocuments⟩ :=
      hcounts.get_saved report.total.toUInt64 report.skipped.length.toUInt64
    rw [hok] at hstats
    rw [← htotal, ← hblocks, ← hdocuments]
    exact ⟨congrArg (·.get .blocksSaved) hstats, congrArg (·.get .documentsWritten) hstats⟩

/-- A block without tokens is saved while tokens and blocks are unavailable. -/
theorem saveBlock_all_or_available_blocks :
    let ix : Indexer := {}
    let block : Block := { pool := { transactions := [("aa", {})] } }
    let answer := ix.saveBlock block ((Store.withPageSize 10).withUnavailable [Index.tokens, Index.blocks])
    answer.1 = .error (.store (Store.unavailableError Index.blocks)) ∧ answer.2.1.stats = .start ∧
      answer.2.2.index Index.transactions =
        (ix.saveBlock block (Store.withPageSize 10)).2.2.index Index.transactions := by
  intro ix block
  have hcounts : ix.stats.Complete := Counters.complete_start
  obtain ⟨-, hgiven, hfailed, -⟩ := ix.saveBlock_all_or_available block hcounts (Store.usable_withPageSize 10)
    [Index.tokens, Index.blocks]
  have hacc : ix.accumulate block = {} := rfl
  have hup : ¬(Index.tokens ∈ [Index.tokens, Index.blocks] ∧ TokenWrites.NeedsLookup (ix.accumulate block)) := by
    rw [hacc]
    simp [TokenWrites.NeedsLookup, Dict.values]
  have hblocks : (Index.blocks, blockWrite block.header block.body) ∈ ix.writesOn block (Store.withPageSize 10) :=
    List.mem_flatMap.2 ⟨(Index.blocks, [blockWrite block.header block.body]), by simp [groups],
      List.mem_cons_self⟩
  obtain ⟨-, havailable, -, herror⟩ := hgiven hup
  obtain ⟨w, -, hd, hleast, hreport⟩ := herror ⟨_, hblocks, by simp⟩
  have hfirst : w.1 = Index.blocks := by
    have hle := hleast _ hblocks (by simp)
    simp only [List.mem_cons, List.not_mem_nil, or_false] at hd
    refine hd.resolve_left fun htokens => ?_
    rw [htokens] at hle
    exact absurd hle (by decide)
  rw [hfirst] at hreport
  exact ⟨hreport, hfailed _ hreport, havailable _ (by decide)⟩

end Indexer
end ChainIndex
