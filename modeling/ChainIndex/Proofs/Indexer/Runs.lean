import ChainIndex.Proofs.Indexer.Attempt

/-!
Runs of saves and reverts. Whatever indices are unavailable while each of them runs, every stored document
stays an object in order, and every document of a token is of one that the events of the saved blocks name.
-/
namespace ChainIndex

variable {s t : Store} {events more : List Delta} {name id : String} {doc : Value}

theorem NamesApart.of_append (h : NamesApart (more ++ events)) : NamesApart events :=
  h.mono (List.subset_append_right more events)

/-- The stores reached from an empty one by saving and reverting blocks, with all that the events of the
saved blocks say, the last of them first. While each block is saved or reverted some indices may be
unavailable. -/
inductive Run : List Delta → Store → Prop
  | start (n : Nat) : Run [] (Store.withPageSize n)
  | save {events : List Delta} {s : Store} (ix : Indexer) {block : Block} (down : List String) :
      Run events s → block.Ordered →
      Run (ix.deltas block ++ events) ((ix.saveBlock block (s.withUnavailable down)).2.2.withUnavailable [])
  | revert {events : List Delta} {s : Store} (ix : Indexer) (header : Header) (body : Body) (down : List String) :
      Run events s →
      Run events ((ix.revertBlock header body (s.withUnavailable down)).2.2.withUnavailable [])

/-- Every index is available and in order, and so is every document; those of tokens are of tokens that the
events name. -/
structure Store.Sound (s : Store) (events : List Delta) : Prop where
  usable : s.Usable
  documents : ∀ name id doc, s.get? name id = some doc → doc.IsDocument
  tokens : TokenDocuments events s

theorem Store.sound_withPageSize (n : Nat) : (Store.withPageSize n).Sound [] :=
  ⟨Store.usable_withPageSize n, nofun, nofun⟩

namespace Indexer

variable {ix : Indexer} {block : Block}

theorem fits (h : s.Sound events) (hn : NamesApart (ix.deltas block ++ events)) :
    TokenWrites.Fits (ix.accumulate block) (ix.deltas block) events s :=
  ⟨ix.gathers_accumulate block, h.usable, h.tokens, hn⟩

theorem isDocument_savedAt (h : s.Sound events) (hn : NamesApart (ix.deltas block ++ events)) (hb : block.Ordered)
    (hd : ix.savedAt block s name id = some doc) : doc.IsDocument := by
  unfold savedAt at hd
  split at hd
  · exact ((fits h hn).tokenDocument_writtenOn hd).isDocument
  · exact ix.isDocument_written hb (fun doc hs => h.documents name id doc hs) hd

/-- A save keeps stores sound, whatever it fails to write. -/
theorem sound_savedPartly (h : s.Sound events) (hn : NamesApart (ix.deltas block ++ events)) (hb : block.Ordered)
    (down : List String) : (ix.savedPartly block down s).Sound (ix.deltas block ++ events) := by
  have hkept : TokenDocuments (ix.deltas block ++ events) s := fun id doc hd =>
    (h.tokens id doc hd).mono (List.subset_append_right _ _)
  rcases get?_savedPartly (fits h hn) down with ⟨-, hsame⟩ | hget
  · rw [hsame]
    exact ⟨h.usable, h.documents, hkept⟩
  · refine ⟨ix.usable_savedPartly block h.usable down, fun name id doc hd => ?_, fun id doc hd => ?_⟩
    · rw [hget] at hd
      split at hd
      · exact h.documents name id doc hd
      · exact isDocument_savedAt h hn hb hd
    · rw [hget] at hd
      split at hd
      · exact hkept id doc hd
      · exact (fits h hn).tokenDocument_writtenOn hd

end Indexer

namespace Rollback

variable {d : Denomination} {header : Header} {body : Body} {down : List String}

theorem ordered_unwindMutations (d : Denomination) (results : List String) (others : Bool) :
    ∀ m ∈ unwindMutations d results others, m.Ordered := by
  intro m hm
  rcases List.mem_append.1 hm with hm | hm
  · obtain ⟨result, -, rfl⟩ := List.mem_map.1 hm
    trivial
  · split at hm
    · cases hm
    · rw [List.mem_singleton.1 hm]
      trivial

theorem isDocument_unwoundAt {hashes : List String} {stored : Option Value}
    (h : ∀ doc, stored = some doc → doc.IsDocument) (hd : unwoundAt d hashes s id stored = some doc) :
    doc.IsDocument :=
  unwoundAt_induction h
    (fun results others _ hold => Mutation.isDocument_applyAll (ordered_unwindMutations d results others) hold) hd

theorem ordered_miniBlockReverts (header : Header) (body : Body) :
    ∀ item ∈ miniBlockReverts header body, item.action.Ordered := by
  intro item hi
  obtain ⟨m, -, hm⟩ := List.mem_filterMap.1 hi
  unfold miniBlockRevert? at hm
  split at hm
  · obtain rfl := Option.some.inj hm
    trivial
  · split at hm
    · obtain rfl := Option.some.inj hm
      exact List.forall_mem_singleton.2 trivial
    · cases hm

/-- What a revert leaves are documents, whatever it fails to take. -/
theorem RemainsPartly.isDocument (h : RemainsPartly down d header body s t)
    (hs : ∀ name id doc, s.get? name id = some doc → doc.IsDocument) (hn : name ∈ Index.revertible)
    (hd : t.get? name id = some doc) : doc.IsDocument := by
  by_cases hdown : name ∈ down
  · rw [h.failed name hdown] at hd
    exact hs name id doc hd
  by_cases hr : name ∈ Index.records
  · rw [h.records name hr hdown] at hd
    split at hd
    · cases hd
    · split at hd
      · exact hs name id doc hd
      · exact isDocument_unwoundAt (fun old ho => hs name id old ho) hd
  rcases Index.eq_of_mem_revertible hn hr with rfl | rfl | rfl | rfl
  · rw [h.scResults hdown] at hd
    split at hd
    · cases hd
    · exact hs _ id doc hd
  · rw [h.miniBlocks hdown] at hd
    exact WriteItem.isDocument_applyAt (ordered_miniBlockReverts header body) (fun old ho => hs _ id old ho) hd
  · rw [h.blocks hdown] at hd
    split at hd
    · cases hd
    · exact hs _ id doc hd
  · rw [h.balances hdown] at hd
    exact hs _ id doc (Option.mem_filter_iff.1 hd).1

/-- A revert leaves all other indices alone, whatever it fails to take. -/
theorem get?_attempt_of_not_mem (d : Denomination) (header : Header) (body : Body) (down : List String)
    (hn : name ∉ Index.revertible) (s : Store) (id : String) :
    (Session.attempt (revertBlock d header body) down s).get? name id = s.get? name id :=
  congrArg (·.find? id) ((within_revertBlock d header body).index_attempt hn down s)

/-- A revert keeps the store sound, whatever it fails to do. -/
theorem sound_attempt (h : s.Sound events) (d : Denomination) (header : Header) (body : Body) (down : List String) :
    (Session.attempt (revertBlock d header body) down s).Sound events := by
  have hpartly := remainsPartly d header body h.usable down
  refine ⟨hpartly.usable, fun name id doc hd => ?_, fun id doc hd => ?_⟩
  · by_cases hn : name ∈ Index.revertible
    · exact hpartly.isDocument h.documents hn hd
    · rw [get?_attempt_of_not_mem d header body down hn] at hd
      exact h.documents name id doc hd
  · rw [get?_attempt_of_not_mem d header body down (by decide)] at hd
    exact h.tokens id doc hd

end Rollback

/-- Every store that a run reaches is sound, if the names in its events are apart. -/
theorem Run.sound (h : Run events s) (hn : NamesApart events) : s.Sound events := by
  induction h with
  | start n => exact Store.sound_withPageSize n
  | save ix down hrun hb ih => exact Indexer.sound_savedPartly (ih hn.of_append) hn hb down
  | @revert events s ix header body down hrun ih =>
    rw [ix.revertBlock_eq_attempt]
    exact Rollback.sound_attempt (ih hn) ix.denomination header body down

end ChainIndex
