import ChainIndex.Proofs.Indexer.Lookups
import ChainIndex.Proofs.Indexer.Retry
import ChainIndex.Proofs.Indexer.Settled
import ChainIndex.Proofs.Indexer.Tokens

/-!
Saves that fail in part. Without the tokens that the look-ups ask for nothing is written; else every
available index is flushed as in a save that succeeds, and the others stay.
-/
namespace ChainIndex

variable {s t : Store} {down : List String} {events earlier : List Delta}

namespace Flush

theorem within_sendAll (index : String) (chunks : List (List WriteItem)) : (sendAll index chunks).Within [index] := by
  induction chunks with
  | nil => exact StoreM.within_pure ()
  | cons chunk rest ih => exact (StoreM.within_bulkUpsert index chunk).bind fun _ => ih

theorem within_flushIndex (limit : Nat) (index : String) (docs : Dict WriteAction) :
    (flushIndex limit index docs).Within [index] :=
  (within_sendAll index _).bind fun _ => StoreM.within_pure _

/-- Each available index gets its writes, whatever becomes of the others. -/
theorem get?_attempt_flushIndices (limit : Nat) {indices : Dict (Dict WriteAction)} (hn : indices.keys.Nodup)
    (h : s.Usable) (down : List String) (name id : String) :
    ((flushIndices limit indices).attempt down s).get? name id =
      if name ∈ down then s.get? name id
      else WriteItem.applyAt id (((indices.find? name).getD []).map fun e => ⟨e.1, e.2⟩) (s.get? name id) := by
  induction indices generalizing s with
  | nil =>
    refine (congrArg (·.get? name id) (Session.attempt_done h.available _ down)).trans ?_
    simp
  | cons e rest ih =>
    obtain ⟨index, docs⟩ := e
    obtain ⟨hout, hrest⟩ := List.nodup_cons.1 hn
    obtain ⟨t, hflush, -, hget⟩ := gives_flushIndex limit index docs h
    have hfirst : Session.attempt (do
        let written ← (flushIndex limit index docs).run
        return (index, written)) down s = (flushIndex limit index docs).run.attempt down s :=
      Session.attempt_bind_done _ _ down s
    have husable := Session.usable_attempt h (flushIndex limit index docs).run down
    rw [flushIndices, List.map_cons, Session.attempt_all_cons]
    simp only [hfirst]
    rw [flushIndices] at ih
    rw [ih hrest husable, hflush.get?_attempt (within_flushIndex limit index docs) h, hget, Dict.find?]
    by_cases hd : name ∈ down
    · simp only [hd, ↓reduceIte]
    · by_cases he : index = name
      · subst he
        have hnone : Dict.find? rest index = none := Dict.find?_eq_none_iff.2 hout
        simp [hd, hnone]
      · simp [hd, he]

/-- A flush does to every available index what the batch says, whatever becomes of the others. -/
theorem get?_attempt_flush (limit : Nat) {b : WriteBatch} (hb : b.Distinct) (h : s.Usable) (down : List String)
    (name id : String) :
    ((flush limit b).attempt down s).get? name id =
      if name ∈ down then s.get? name id else b.applyAt name id (s.get? name id) := by
  refine (congrArg (·.get? name id) (Session.attempt_bind_done _ _ down s)).trans ?_
  rw [get?_attempt_flushIndices limit hb.indices h]
  split
  · rfl
  · rw [WriteBatch.applyAt, WriteBatch.get?]
    cases hd : b.indices.find? name with
    | none => rfl
    | some docs =>
      have hmap := WriteItem.applyAt_map id (s.get? name id) (hb.documents name docs hd) fun _ action => action
      refine hmap.trans ?_
      simp only [Option.bind_some]
      cases docs.find? id <;> rfl

end Flush

namespace TokenWrites

/-- What becomes of tokens depends on the stored ones alone. -/
theorem writtenOn_congr (acc : BlockAccumulators) (h : t.index Index.tokens = s.index Index.tokens) (id : String) :
    writtenOn acc t id = writtenOn acc s id := by
  have hget (id : String) : t.get? Index.tokens id = s.get? Index.tokens id := congrArg (·.find? id) h
  have hcollections : collectionIn acc t = collectionIn acc s := by
    funext c
    rw [collectionIn, collectionIn, hget]
  have hretypes : retypes t = retypes s := by
    funext c type
    simp only [retypes, Store.selected, Store.documents, h]
  rw [writtenOn, writtenOn, itemsOn, itemsOn, hcollections, hretypes, hget]

end TokenWrites

namespace Indexer

variable (ix : Indexer) (block : Block)

def savedAt (s : Store) (name id : String) : Option Value :=
  if name = Index.tokens then TokenWrites.writtenOn (ix.accumulate block) s id
  else ix.written block name id (s.get? name id)

/-- The store after a save during which the given indices are unavailable, with all available again. -/
def savedPartly (down : List String) (s : Store) : Store := (ix.save block).attempt down s

theorem saveBlock_eq_savedPartly (down : List String) (s : Store) :
    (ix.saveBlock block (s.withUnavailable down)).2.2.withUnavailable [] = ix.savedPartly block down s := rfl

theorem saved_eq_savedPartly (h : s.Usable) : ix.saved block s = ix.savedPartly block [] s := by
  have hrun := Session.usable_run h (ix.save block)
  rw [savedPartly, Session.attempt, h.withUnavailable_nil, hrun.withUnavailable_nil]
  rfl

theorem usable_savedPartly (h : s.Usable) (down : List String) : (ix.savedPartly block down s).Usable :=
  Session.usable_attempt h _ down

def batchOn (s : Store) : WriteBatch := ix.batch block (TokenWrites.itemsOn (ix.accumulate block) s)

/-- A block that needs a look-up makes no other call without the tokens. -/
theorem run_save_of_lookup (hd : Index.tokens ∈ down)
    (hn : TokenWrites.NeedsLookup (ix.accumulate block)) : (ix.save block).run (s.withUnavailable down) =
      (.error (Store.unavailableError Index.tokens), s.withUnavailable down) := by
  have hwithin := TokenWrites.within_tokenWrites (ix.accumulate block)
  have hrun : Session.run (TokenWrites.tokenWrites (ix.accumulate block)).run (s.withUnavailable down) =
      (.error (Store.unavailableError Index.tokens), s.withUnavailable down) :=
    Prod.ext (TokenWrites.stops_tokenWrites hn _ hd)
      (Session.Within.run_of_unavailable hwithin (List.forall_mem_singleton.2 hd))
  unfold save
  rw [Session.run_bind, hrun]
  rfl

/-- Any other flushes its batch. -/
theorem run_save_of_available (h : s.Usable)
    (hup : Index.tokens ∈ down → ¬TokenWrites.NeedsLookup (ix.accumulate block)) :
    (ix.save block).run (s.withUnavailable down) =
      (Flush.flush ix.config.bulkLimit.toNat (ix.batchOn block s)).run (s.withUnavailable down) := by
  have hrun := TokenWrites.gives_itemsOn_of_available (ix.accumulate block) h hup
  unfold save
  rw [Session.run_bind, hrun]
  rfl

theorem savedPartly_of_lookup (h : s.Usable) (hd : Index.tokens ∈ down)
    (hn : TokenWrites.NeedsLookup (ix.accumulate block)) : ix.savedPartly block down s = s := by
  rw [savedPartly, Session.attempt, ix.run_save_of_lookup block hd hn]
  exact h.withUnavailable_nil

/-- Unless a look-up fails, a save makes of each available index what the batch says. -/
theorem get?_savedPartly_of_available (h : s.Usable)
    (hup : Index.tokens ∈ down → ¬TokenWrites.NeedsLookup (ix.accumulate block)) (name id : String) :
    (ix.savedPartly block down s).get? name id =
      if name ∈ down then s.get? name id else (ix.batchOn block s).applyAt name id (s.get? name id) := by
  rw [savedPartly, Session.attempt, ix.run_save_of_available block h hup]
  exact Flush.get?_attempt_flush _ (ix.ordered_batch block _).distinct h down name id

/-- Without the tokens, where the block needs them, a save does nothing; otherwise every available index gets its
writes. -/
theorem savedPartly_cases (h : s.Usable) (down : List String) :
    (Index.tokens ∈ down ∧ ix.savedPartly block down s = s) ∨ ∀ name id, (ix.savedPartly block down s).get? name id =
      if name ∈ down then s.get? name id else (ix.batchOn block s).applyAt name id (s.get? name id) := by
  by_cases hfails : Index.tokens ∈ down ∧ TokenWrites.NeedsLookup (ix.accumulate block)
  · exact .inl ⟨hfails.1, ix.savedPartly_of_lookup block h hfails.1 hfails.2⟩
  · exact .inr (ix.get?_savedPartly_of_available block h (not_and.1 hfails))

/-- A document that is none of a token is left by a save as it is, where its index or that of tokens is not available,
or made what the block makes of it. -/
theorem get?_savedPartly_of_ne (h : s.Usable) (down : List String) {name : String} (hn : name ≠ Index.tokens) :
    ((Index.tokens ∈ down ∨ name ∈ down) ∧ ∀ id, (ix.savedPartly block down s).get? name id = s.get? name id) ∨
    name ∉ down ∧ ∀ id, (ix.savedPartly block down s).get? name id = ix.written block name id (s.get? name id) := by
  rcases ix.savedPartly_cases block h down with ⟨hd, hsame⟩ | hget
  · exact .inl ⟨.inl hd, fun id => by rw [hsame]⟩
  · by_cases hd : name ∈ down
    · exact .inl ⟨.inr hd, fun id => by rw [hget, if_pos hd]⟩
    · exact .inr ⟨hd, fun id => by rw [hget, if_neg hd, batchOn, ix.applyAt_batch_of_ne block _ hn]⟩

variable {ix block}

section Fits

variable (h : TokenWrites.Fits (ix.accumulate block) (ix.deltas block) earlier s)

include h

/-- The one write that a block makes of those to a token's document does what they do in a row. -/
theorem applyAt_batch_tokens (id : String) :
    (ix.batchOn block s).applyAt Index.tokens id (s.get? Index.tokens id) = TokenWrites.writtenOn (ix.accumulate block) s id := by
  have hgroup : ((ix.groups block (TokenWrites.itemsOn (ix.accumulate block) s)).find? Index.tokens).getD [] =
      TokenWrites.itemsOn (ix.accumulate block) s := rfl
  rw [batchOn, WriteBatch.applyAt, get?_batch, hgroup]
  refine WriteAction.apply_combineAll fun hnone hlate => ?_
  obtain ⟨ms, more, upserted, rest, hactions⟩ := hlate
  rw [TokenWrites.actionsOf_itemsOn h.gathers h.usable, hnone, Option.bind_none, Option.map_none,
    Option.toList_none, List.append_nil] at hactions
  -- a document has its write as a token or as a non-fungible token, not both
  have hlength : (TokenWrites.tokenAction? (ix.accumulate block) id).toList.length +
      (TokenWrites.nftAction? (ix.accumulate block) s id).toList.length ≤ 1 := by
    cases hf : (ix.accumulate block).tokens.find? id with
    | none =>
      have htoken : TokenWrites.tokenAction? (ix.accumulate block) id = none := by
        rw [TokenWrites.tokenAction?, hf]
        rfl
      rw [htoken]
      cases TokenWrites.nftAction? (ix.accumulate block) s id <;> simp
    | some tok =>
      have hnft : TokenWrites.nftAction? (ix.accumulate block) s id = none := by
        rw [TokenWrites.nftAction?, h.find?_nfts_of_token (Delta.mem_names_left (h.gathers.tokens id tok hf).2)]
        rfl
      rw [hnft]
      cases TokenWrites.tokenAction? (ix.accumulate block) id <;> simp
  have hsame := congrArg List.length hactions
  simp only [List.length_append, List.length_map, List.length_cons] at hsame
  omega

/-- A save writes nothing, for want of the stored tokens, or all that it writes to the available indices. -/
theorem get?_savedPartly (down : List String) :
    (Index.tokens ∈ down ∧ ix.savedPartly block down s = s) ∨ ∀ name id,
      (ix.savedPartly block down s).get? name id =
        if name ∈ down then s.get? name id else ix.savedAt block s name id := by
  refine (savedPartly_cases ix block h.usable down).imp_right fun hget name id => ?_
  rw [hget]
  split
  · rfl
  · rw [savedAt]
    split
    · next he =>
      subst he
      exact applyAt_batch_tokens h id
    · next hne => exact ix.applyAt_batch_of_ne block _ hne id _

/-- The tokens are left by a save as they are, where their index is not available, or made what the block makes of
them. -/
theorem get?_savedPartly_tokens (down : List String) :
    (Index.tokens ∈ down ∧ ∀ id, (ix.savedPartly block down s).get? Index.tokens id = s.get? Index.tokens id) ∨
    Index.tokens ∉ down ∧ ∀ id,
      (ix.savedPartly block down s).get? Index.tokens id = TokenWrites.writtenOn (ix.accumulate block) s id := by
  rcases get?_savedPartly h down with ⟨hd, hsame⟩ | hget
  · exact .inl ⟨hd, fun id => by rw [hsame]⟩
  · by_cases hd : Index.tokens ∈ down
    · exact .inl ⟨hd, fun id => by rw [hget, if_pos hd]⟩
    · exact .inr ⟨hd, fun id => by rw [hget, if_neg hd, savedAt, if_pos rfl]⟩

theorem get?_saved_eq (name id : String) : (ix.saved block s).get? name id = ix.savedAt block s name id := by
  rw [ix.saved_eq_savedPartly block h.usable]
  rcases get?_savedPartly h [] with ⟨hd, -⟩ | hget
  · cases hd
  · rw [hget, if_neg List.not_mem_nil]

end Fits

end Indexer
end ChainIndex
