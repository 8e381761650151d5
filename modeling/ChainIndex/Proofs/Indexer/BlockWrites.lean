import ChainIndex.Indexer.BlockWrites
import ChainIndex.Indexer.Balance
import ChainIndex.Proofs.Fields
import ChainIndex.Proofs.Items

/-!
What a block writes of itself, of its miniblocks and of balances. The first and the last do not depend
on what is stored. A miniblock that was only received is the same again when it is merged after a
revert.
-/
namespace ChainIndex

variable {header : Header} {id : String} {stored : Option Value}

namespace WriteAction

def IsAbsolute : WriteAction → Prop
  | overwrite _ => True
  | delete => True
  | _ => False

theorem IsAbsolute.apply_eq {action : WriteAction} (h : action.IsAbsolute) (stored other : Option Value) :
    action.apply stored = action.apply other := by
  cases action with
  | overwrite doc => rfl
  | delete => rfl
  | upsert ms => cases h
  | update ms => cases h

end WriteAction

namespace WriteItem

/-- A document that is written absolutely is the same whatever was stored. -/
theorem applyAt_eq_of_absolute {items : List WriteItem} (h : ∀ item ∈ items, item.action.IsAbsolute)
    (hm : ∃ item ∈ items, item.id = id) (stored other : Option Value) :
    applyAt id items stored = applyAt id items other := by
  induction items generalizing stored other with
  | nil =>
    obtain ⟨item, hi, -⟩ := hm
    cases hi
  | cons item rest ih =>
    obtain ⟨hitem, hrest⟩ := List.forall_mem_cons.1 h
    rw [applyAt_cons, applyAt_cons]
    by_cases hid : item.id = id
    · rw [if_pos hid, if_pos hid, hitem.apply_eq stored other]
    · rw [if_neg hid, if_neg hid]
      obtain ⟨found, hf, hfid⟩ := hm
      rcases List.mem_cons.1 hf with rfl | hf
      · exact absurd hfid hid
      · exact ih hrest ⟨found, hf, hfid⟩ stored other

/-- Patches merged into one document. -/
theorem applyAt_merges {α : Type} (xs : List α) (key : α → String) (patch : α → Value) (id : String)
    (stored : Option Value) :
    applyAt id (xs.map fun x => ⟨key x, .upsert [.merge (patch x)]⟩) stored =
      if xs.any (key · = id) then
        some (Value.mergeAll ((xs.filter (key · = id)).map patch) (stored.getD .empty))
      else stored := by
  induction xs generalizing stored with
  | nil => rfl
  | cons x rest ih =>
    rw [List.map_cons, applyAt_cons, ih]
    by_cases hx : key x = id
    · by_cases hrest : rest.any (key · = id) = true
      · simp [hx, hrest, WriteAction.apply, Value.mergeAll, Mutation.applyAll, Mutation.apply]
      · have hnone : rest.filter (key · = id) = [] := by
          simpa [List.filter_eq_nil_iff] using hrest
        simp [hx, hrest, hnone, WriteAction.apply, Value.mergeAll, Mutation.applyAll, Mutation.apply]
    · simp [hx]

end WriteItem

namespace BalanceWriter

variable (w : BalanceWriter) (accounts : Dict AlteredAccount)

/-- A balance is deleted, or its document is written as a whole. -/
theorem action_of_mem_writes {item : WriteItem} (h : item ∈ w.writes accounts) :
    item.action = .delete ∨ ∃ address balance, item.action = .overwrite (w.document address balance) := by
  obtain ⟨account, -, ha⟩ := List.mem_flatMap.1 h
  obtain ⟨balance, -, rfl⟩ := List.mem_map.1 ha
  unfold write
  dsimp only
  split
  · exact .inl rfl
  · exact .inr ⟨account.address, balance, rfl⟩

theorem isAbsolute_writes : ∀ item ∈ w.writes accounts, item.action.IsAbsolute := by
  intro item hi
  rcases w.action_of_mem_writes accounts hi with h | ⟨_, _, h⟩ <;> rw [h] <;> trivial

end BalanceWriter

section MiniBlocks

variable {miniBlocks : List MiniBlock}

def miniBlocksAt (header : Header) (body : Body) (id : String) : List MiniBlock :=
  (body.miniBlocks.filter fun m => m.sender == header.shard || m.receiver == header.shard).filter
    (·.hashHex = id)

theorem isFlat_miniBlockDocument (header : Header) (m : MiniBlock) : (miniBlockDocument header m).IsFlat := by
  have hnat (n : UInt64) : (Value.nat n).fields? = none := rfl
  have hstr (text : String) : (Value.str text).fields? = none := rfl
  refine Value.isFlat_record ?_
  split <;> split <;> simp [hnat, hstr]

/-- The document of a received miniblock has the hash of the receiving block. -/
theorem isSome_get?_miniBlockDocument {m : MiniBlock} (h : m.receiver = header.shard) :
    ((miniBlockDocument header m).get? receiverBlockHash).isSome = true := by
  unfold miniBlockDocument
  rw [Value.get?_record, if_pos h, List.reverse_append]
  rfl

/-- The documents of all miniblocks with the hash are merged one after the other. -/
theorem applyAt_miniBlockWrites (header : Header) (body : Body) (id : String) (stored : Option Value) :
    WriteItem.applyAt id (miniBlockWrites header body) stored =
      if miniBlocksAt header body id = [] then stored
      else some (Value.mergeAll ((miniBlocksAt header body id).map (miniBlockDocument header))
        (stored.getD .empty)) := by
  unfold miniBlockWrites miniBlocksAt
  rw [WriteItem.applyAt_merges]
  by_cases hany : (body.miniBlocks.filter fun m =>
      m.sender == header.shard || m.receiver == header.shard).any (·.hashHex = id) = true
  · rw [if_pos hany, if_neg]
    rw [List.filter_eq_nil_iff]
    intro hnone
    obtain ⟨m, hm, hid⟩ := List.any_eq_true.1 hany
    exact hnone m hm hid
  · rw [if_neg hany, if_pos]
    rw [List.filter_eq_nil_iff]
    exact fun m hm hid => hany (List.any_eq_true.2 ⟨m, hm, hid⟩)

theorem isRecord_applyAt_miniBlockWrites (body : Body) (h : ∀ doc, stored = some doc → doc.IsRecord)
    {doc : Value} (hd : WriteItem.applyAt id (miniBlockWrites header body) stored = some doc) :
    doc.IsRecord := by
  rw [applyAt_miniBlockWrites] at hd
  split at hd
  · exact h doc hd
  · obtain rfl := Option.some.inj hd
    refine Value.IsRecord.mergeAll (List.forall_mem_map.2 fun m _ => isFlat_miniBlockDocument header m) ?_
    cases stored with
    | none => exact Value.isRecord_empty
    | some old => exact h old rfl

theorem applyAt_miniBlockReverts_none (miniBlocks : List MiniBlock) :
    WriteItem.applyAt id (miniBlocks.filterMap (miniBlockRevert? header)) none = none := by
  induction miniBlocks with
  | nil => rfl
  | cons m rest ih =>
    rw [List.filterMap_cons]
    cases hm : miniBlockRevert? header m with
    | none => exact ih
    | some item =>
      have hitem : item.action.apply none = none := by
        unfold miniBlockRevert? at hm
        split at hm
        · cases hm
          rfl
        · split at hm <;> cases hm
          rfl
      simpa [hitem] using ih

/-- Nothing is left of a miniblock that the block sent. -/
theorem applyAt_miniBlockReverts_of_sent
    (h : ∃ m ∈ miniBlocks, m.hashHex = id ∧ m.sender = header.shard) (stored : Option Value) :
    WriteItem.applyAt id (miniBlocks.filterMap (miniBlockRevert? header)) stored = none := by
  induction miniBlocks generalizing stored with
  | nil =>
    obtain ⟨m, hm, -⟩ := h
    cases hm
  | cons m rest ih =>
    by_cases hm : m.hashHex = id ∧ m.sender = header.shard
    · obtain ⟨hid, hsent⟩ := hm
      have hrevert : miniBlockRevert? header m = some ⟨m.hashHex, .delete⟩ := if_pos hsent
      rw [List.filterMap_cons, hrevert]
      simpa [hid, WriteAction.apply] using applyAt_miniBlockReverts_none rest
    · obtain ⟨found, hf, hfound⟩ := h
      rcases List.mem_cons.1 hf with rfl | hf
      · exact absurd hfound hm
      · rw [List.filterMap_cons]
        cases miniBlockRevert? header m with
        | none => exact ih ⟨found, hf, hfound⟩ stored
        | some item => exact ih ⟨found, hf, hfound⟩ _

/-- The receiver of a miniblock only withdraws its block hash. -/
theorem applyAt_miniBlockReverts_of_not_sent
    (hs : ∀ m ∈ miniBlocks, m.hashHex = id → m.sender ≠ header.shard) (stored : Option Value) :
    WriteItem.applyAt id (miniBlocks.filterMap (miniBlockRevert? header)) stored =
      if miniBlocks.any (fun m => m.hashHex = id ∧ m.receiver = header.shard) then
        stored.map (·.eraseKey receiverBlockHash)
      else stored := by
  have hunset (doc : Option Value) :
      (WriteAction.update [.unset receiverBlockHash]).apply doc =
        doc.map (·.eraseKey receiverBlockHash) := rfl
  induction miniBlocks generalizing stored with
  | nil => rfl
  | cons m rest ih =>
    obtain ⟨hm, hrest⟩ := List.forall_mem_cons.1 hs
    rw [List.filterMap_cons, List.any_cons]
    by_cases hid : m.hashHex = id
    · have hnot := hm hid
      by_cases hr : m.receiver = header.shard
      · have hrevert : miniBlockRevert? header m = some ⟨m.hashHex, .update [.unset receiverBlockHash]⟩ := by
          simp [miniBlockRevert?, hnot, hr]
        rw [hrevert]
        simp only [WriteItem.applyAt_cons, ih hrest, hid, hunset, ↓reduceIte]
        simp [hr, Value.eraseKey_eraseKey, Function.comp_def]
      · have hrevert : miniBlockRevert? header m = none := by simp [miniBlockRevert?, hnot, hr]
        rw [hrevert]
        simpa [hr] using ih hrest stored
    · cases hrevert : miniBlockRevert? header m with
      | none => simpa [hid] using ih hrest stored
      | some item =>
        have hitem : item.id = m.hashHex := by
          unfold miniBlockRevert? at hrevert
          split at hrevert
          · cases hrevert
            rfl
          · split at hrevert <;> cases hrevert
            rfl
        simpa [hitem, hid] using ih hrest stored

/-- Miniblocks that the block does not send are the same again after a revert. -/
theorem applyAt_miniBlocks_of_not_sent {body : Body}
    (hs : ∀ m ∈ body.miniBlocks, m.hashHex = id → m.sender ≠ header.shard)
    (hr : ∀ doc, stored = some doc → doc.IsRecord) :
    WriteItem.applyAt id (miniBlockWrites header body)
        (WriteItem.applyAt id (miniBlockReverts header body)
          (WriteItem.applyAt id (miniBlockWrites header body) stored)) =
      WriteItem.applyAt id (miniBlockWrites header body) stored := by
  have hreverts (doc : Option Value) : WriteItem.applyAt id (miniBlockReverts header body) doc =
      if body.miniBlocks.any (fun m => m.hashHex = id ∧ m.receiver = header.shard) then
        doc.map (·.eraseKey receiverBlockHash)
      else doc := applyAt_miniBlockReverts_of_not_sent hs doc
  have hflat : ∀ patch ∈ (miniBlocksAt header body id).map (miniBlockDocument header), patch.IsFlat :=
    List.forall_mem_map.2 fun m _ => isFlat_miniBlockDocument header m
  have hrecord : (stored.getD .empty).IsRecord := by
    cases stored with
    | none => exact Value.isRecord_empty
    | some old => exact hr old rfl
  rw [hreverts]
  cases hany : body.miniBlocks.any (fun m => m.hashHex = id ∧ m.receiver = header.shard) with
  | false =>
    have hnone : miniBlocksAt header body id = [] := by
      rw [miniBlocksAt, List.filter_eq_nil_iff]
      intro m hm hid
      obtain ⟨hbody, hrole⟩ := List.mem_filter.1 hm
      have hid : m.hashHex = id := by simpa using hid
      have hreceived : m.receiver ≠ header.shard := by
        have := List.any_eq_false.1 hany m hbody
        simpa [hid] using this
      simp [hs m hbody hid, hreceived] at hrole
    simp [applyAt_miniBlockWrites, hnone]
  | true =>
    obtain ⟨m, hm, hmid⟩ := List.any_eq_true.1 hany
    obtain ⟨hid, hreceived⟩ : m.hashHex = id ∧ m.receiver = header.shard := by simpa using hmid
    have hat : m ∈ miniBlocksAt header body id := by
      simp [miniBlocksAt, hm, hid, hreceived]
    have hne : miniBlocksAt header body id ≠ [] := List.ne_nil_of_mem hat
    simp only [applyAt_miniBlockWrites, hne, ↓reduceIte, Option.map_some, Option.getD_some]
    refine congrArg some (Value.mergeAll_eraseKey_mergeAll hflat ?_ hrecord)
    exact ⟨_, List.mem_map.2 ⟨m, hat, rfl⟩, isSome_get?_miniBlockDocument hreceived⟩

end MiniBlocks
end ChainIndex
