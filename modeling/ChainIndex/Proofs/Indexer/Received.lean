import ChainIndex.Proofs.Bytes.Hex
import ChainIndex.Proofs.Indexer.BlockWrites

/-!
A miniblock in the eyes of the shard that receives it. What this shard writes and takes back again
leaves the sender's document as it was. Where the sender wrote nothing yet, the fields that both shards
write stay behind.
-/
namespace ChainIndex

variable {header : Header} {body : Body} {m : MiniBlock}

/-- The fields that both shards write of a miniblock. -/
def MiniBlock.sharedFields (m : MiniBlock) : List (String × Value) :=
  [("senderShard", .nat m.sender.toUInt64), ("receiverShard", .nat m.receiver.toUInt64),
    ("type", .str m.kind.label)]

structure MiniBlock.SentOnly (m : MiniBlock) (doc : Value) : Prop where
  record : doc.IsRecord
  shared : ∀ key value, Dict.find? m.sharedFields.reverse key = some value → doc.get? key = some value
  unreceived : doc.get? receiverBlockHash = none

/-- A miniblock as the sending shard writes it, and as the receiving one does. -/
theorem miniBlockDocument_sent (hs : m.sender = header.shard) (hr : m.receiver ≠ header.shard) :
    miniBlockDocument header m = .record (m.sharedFields ++
      [(senderBlockHash, .str header.hashHex), ("timestamp", .nat header.timestamp)]) := by
  simp [miniBlockDocument, MiniBlock.sharedFields, hs, hr]

theorem miniBlockDocument_received (hs : m.sender ≠ header.shard) (hr : m.receiver = header.shard) :
    miniBlockDocument header m =
      .record (m.sharedFields ++ [(receiverBlockHash, .str header.hashHex)]) := by
  simp [miniBlockDocument, MiniBlock.sharedFields, hs, hr]

/-- The sender writes its block hash, the time stamp and the fields that both shards write. -/
theorem get?_miniBlockDocument_sent (hs : m.sender = header.shard) (hr : m.receiver ≠ header.shard)
    (key : String) :
    (miniBlockDocument header m).get? key =
      if "timestamp" = key then some (.nat header.timestamp)
      else if senderBlockHash = key then some (.str header.hashHex)
      else Dict.find? m.sharedFields.reverse key := by
  rw [miniBlockDocument_sent hs hr, Value.get?_record, List.reverse_append]
  rfl

/-- The receiver writes its block hash and the fields that both shards write. -/
theorem get?_miniBlockDocument_received (hs : m.sender ≠ header.shard) (hr : m.receiver = header.shard)
    (key : String) :
    (miniBlockDocument header m).get? key =
      if receiverBlockHash = key then some (.str header.hashHex)
      else Dict.find? m.sharedFields.reverse key := by
  rw [miniBlockDocument_received hs hr, Value.get?_record, List.reverse_append]
  rfl

/-- The fields of one shard alone are none of the shared ones. -/
theorem MiniBlock.find?_sharedFields (m : MiniBlock) :
    ∀ key ∈ [receiverBlockHash, senderBlockHash, "timestamp"],
      Dict.find? m.sharedFields.reverse key = none := by
  simp [sharedFields, Dict.find?, receiverBlockHash, senderBlockHash]

namespace MiniBlock.SentOnly

variable {doc : Value}

/-- Each write of the sending shard leaves such a document. -/
theorem merge_sent (hs : m.sender = header.shard) (hr : m.receiver ≠ header.shard)
    (h : doc = .empty ∨ m.SentOnly doc) : m.SentOnly ((miniBlockDocument header m).merge doc) := by
  have hflat := isFlat_miniBlockDocument header m
  have hrecord : doc.IsRecord := h.elim (fun he => he ▸ Value.isRecord_empty) SentOnly.record
  have hunreceived : doc.get? receiverBlockHash = none := h.elim (fun he => he ▸ rfl) SentOnly.unreceived
  have hown := m.find?_sharedFields
  refine ⟨hflat.record.merge hrecord, fun key value hv => ?_, ?_⟩
  · have htimestamp : "timestamp" ≠ key := fun he => by simp [← he, hown] at hv
    have hsender : senderBlockHash ≠ key := fun he => by simp [← he, hown] at hv
    rw [Value.get?_merge hflat, get?_miniBlockDocument_sent hs hr, if_neg htimestamp, if_neg hsender, hv]
    rfl
  · rw [Value.get?_merge hflat, get?_miniBlockDocument_sent hs hr, hown _ List.mem_cons_self, hunreceived]
    rfl

/-- The sender's documents, merged any number of times, are one such document. -/
theorem mergeAll_sent (hs : m.sender = header.shard) (hr : m.receiver ≠ header.shard) {patches : List Value}
    (hp : ∀ patch ∈ patches, patch = miniBlockDocument header m) (hne : patches ≠ [])
    (h : doc = .empty ∨ m.SentOnly doc) : m.SentOnly (Value.mergeAll patches doc) := by
  induction patches generalizing doc with
  | nil => exact absurd rfl hne
  | cons patch rest ih =>
    obtain ⟨rfl, hrest⟩ := List.forall_mem_cons.1 hp
    have hmerged := merge_sent hs hr h
    by_cases hlast : rest = []
    · subst hlast
      exact hmerged
    · exact ih hrest hlast (.inr hmerged)

/-- What the receiving shard writes and takes back leaves such a document as it was. -/
theorem eraseKey_merge_received (h : m.SentOnly doc) (hs : m.sender ≠ header.shard)
    (hr : m.receiver = header.shard) :
    ((miniBlockDocument header m).merge doc).eraseKey receiverBlockHash = doc := by
  have hflat := isFlat_miniBlockDocument header m
  refine ((hflat.record.merge h.record).eraseKey _).ext h.record fun key => ?_
  rw [Value.get?_eraseKey, Value.get?_merge hflat, get?_miniBlockDocument_received hs hr]
  by_cases hkey : receiverBlockHash = key
  · subst hkey
    rw [if_pos rfl, h.unreceived]
  · rw [if_neg hkey, if_neg hkey]
    cases hfound : Dict.find? m.sharedFields.reverse key with
    | none => rfl
    | some value => exact (h.shared key value hfound).symm

end MiniBlock.SentOnly

/-- What is left where the sender wrote nothing. -/
theorem eraseKey_merge_empty (hs : m.sender ≠ header.shard) (hr : m.receiver = header.shard) :
    ((miniBlockDocument header m).merge .empty).eraseKey receiverBlockHash = .record m.sharedFields := by
  have hflat := isFlat_miniBlockDocument header m
  refine ((hflat.record.merge Value.isRecord_empty).eraseKey _).ext (Value.isRecord_record _) fun key => ?_
  rw [Value.get?_eraseKey, Value.get?_merge hflat, get?_miniBlockDocument_received hs hr, Value.get?_record]
  by_cases hkey : receiverBlockHash = key
  · subst hkey
    rw [if_pos rfl, m.find?_sharedFields _ List.mem_cons_self]
  · rw [if_neg hkey, if_neg hkey, Value.get?_empty, Option.or_none]

/-- The document of a hash after the blocks of a shard, from an absent one. -/
def miniBlockAfter (blocks : List (Header × Body)) (id : String) : Option Value :=
  blocks.foldl (fun stored block => WriteItem.applyAt id (miniBlockWrites block.1 block.2) stored) none

/-- A block of the shard that sends a miniblock. What it lists under the hash of the miniblock is of the
same shards and kind. -/
def MiniBlock.SentBy (m : MiniBlock) (block : Header × Body) : Prop :=
  block.1.shard = m.sender ∧ ∀ other ∈ block.2.miniBlocks, other.hash = m.hash →
    other.sender = m.sender ∧ other.receiver = m.receiver ∧ other.kind = m.kind

/-- Before the receiving block, the document has what senders write and nothing else. -/
theorem sentOnly_miniBlockAfter (hm : m.sender ≠ m.receiver) {blocks : List (Header × Body)}
    (hblocks : ∀ block ∈ blocks, m.SentBy block) :
    ∀ doc, miniBlockAfter blocks m.hashHex = some doc → m.SentOnly doc := by
  refine List.foldlRecOn (motive := fun stored : Option Value => ∀ doc, stored = some doc → m.SentOnly doc)
    _ _ nofun fun stored hstored block hblock doc hd => ?_
  obtain ⟨hshard, honly⟩ := hblocks block hblock
  rw [applyAt_miniBlockWrites] at hd
  split at hd
  · exact hstored doc hd
  · next hne =>
    obtain rfl := Option.some.inj hd
    refine MiniBlock.SentOnly.mergeAll_sent hshard.symm (hshard ▸ hm.symm) (List.forall_mem_map.2 fun other ho => ?_)
      (mt List.map_eq_nil_iff.1 hne) ?_
    · obtain ⟨hrole, hid⟩ := List.mem_filter.1 ho
      have hhash : other.hash = m.hash := Bytes.hex_injective (of_decide_eq_true hid)
      obtain ⟨hsender, hreceiver, hkind⟩ := honly other (List.mem_filter.1 hrole).1 hhash
      simp only [miniBlockDocument, hsender, hreceiver, hkind]
    · cases stored with
      | none => exact .inl rfl
      | some old => exact .inr (hstored old rfl)

/-- A hash that occurs once picks its miniblock. -/
theorem Body.filter_hashHex (hm : m ∈ body.miniBlocks)
    (honce : (body.miniBlocks.map MiniBlock.hash).count m.hash = 1) :
    body.miniBlocks.filter (·.hashHex = m.hashHex) = [m] := by
  have hsame (other : MiniBlock) : other.hashHex = m.hashHex ↔ other.hash = m.hash :=
    ⟨Bytes.hex_injective, congrArg Bytes.hex⟩
  have hlength : (body.miniBlocks.filter (·.hashHex = m.hashHex)).length = 1 := by
    rw [← honce, ← List.countP_eq_length_filter, List.count, List.countP_map]
    exact List.countP_congr fun other _ => by simp [hsame]
  obtain ⟨only, honly⟩ := List.length_eq_one_iff.1 hlength
  have hmem : m ∈ body.miniBlocks.filter (·.hashHex = m.hashHex) := List.mem_filter.2 ⟨hm, decide_eq_true rfl⟩
  rw [honly, List.mem_singleton] at hmem
  rw [honly, hmem]

/-- What the block of the receiving shard writes of the miniblock, and takes back of it. -/
theorem miniBlockWrites_received (hr : m.receiver = header.shard)
    (honly : body.miniBlocks.filter (·.hashHex = m.hashHex) = [m]) :
    (miniBlockWrites header body).filter (·.id = m.hashHex) =
      [⟨m.hashHex, .upsert [.merge (miniBlockDocument header m)]⟩] := by
  have hat : miniBlocksAt header body m.hashHex = [m] := by
    rw [miniBlocksAt, List.filter_filter]
    simp only [Bool.and_comm]
    rw [← List.filter_filter, honly]
    simp [hr]
  rw [miniBlockWrites, List.filter_map]
  exact congrArg _ hat

/-- The revert of the receiving block withdraws its hash and no more. -/
theorem miniBlockReverts_received (hs : m.sender ≠ header.shard) (hr : m.receiver = header.shard)
    (honly : body.miniBlocks.filter (·.hashHex = m.hashHex) = [m]) :
    (miniBlockReverts header body).filter (·.id = m.hashHex) =
      [⟨m.hashHex, .update [.unset receiverBlockHash]⟩] := by
  have hrevert : miniBlockRevert? header m = some ⟨m.hashHex, .update [.unset receiverBlockHash]⟩ := by
    simp [miniBlockRevert?, hs, hr]
  have hids (other : MiniBlock) : (miniBlockRevert? header other).filter (·.id = m.hashHex) =
      if decide (other.hashHex = m.hashHex) = true then miniBlockRevert? header other else none := by
    unfold miniBlockRevert?
    split
    · simp [Option.filter]
    · split
      · simp [Option.filter]
      · simp
  rw [miniBlockReverts, List.filter_filterMap]
  simp only [hids]
  rw [← List.filterMap_filter, honly, List.filterMap_cons, hrevert]
  rfl

/-- The receiving shard's write and its revert leave what the sending shard wrote, whenever that was
something. The document that only the receiving shard wrote keeps the shared fields. -/
theorem undo_received_miniBlock (hm : m ∈ body.miniBlocks) (hr : m.receiver = header.shard)
    (hs : m.sender ≠ header.shard) (honce : (body.miniBlocks.map MiniBlock.hash).count m.hash = 1)
    {blocks : List (Header × Body)} (hblocks : ∀ block ∈ blocks, m.SentBy block) :
    ∃ write revert, (miniBlockWrites header body).filter (·.id = m.hashHex) = [write] ∧
      (miniBlockReverts header body).filter (·.id = m.hashHex) = [revert] ∧
      revert.action.apply (write.action.apply (miniBlockAfter blocks m.hashHex)) =
        some ((miniBlockAfter blocks m.hashHex).getD (.record m.sharedFields)) := by
  have honly := Body.filter_hashHex hm honce
  refine ⟨_, _, miniBlockWrites_received hr honly, miniBlockReverts_received hs hr honly, ?_⟩
  have hsent := sentOnly_miniBlockAfter (hr ▸ hs) hblocks
  have hundo (stored : Option Value) :
      (WriteAction.update [.unset receiverBlockHash]).apply
          ((WriteAction.upsert [.merge (miniBlockDocument header m)]).apply stored) =
        some (((miniBlockDocument header m).merge (stored.getD .empty)).eraseKey receiverBlockHash) := rfl
  rw [hundo]
  cases hstored : miniBlockAfter blocks m.hashHex with
  | none => exact congrArg some (eraseKey_merge_empty hs hr)
  | some doc => exact congrArg some ((hsent doc hstored).eraseKey_merge_received hs hr)

/-- A miniblock from one shard to another, with headers of both. -/
def crossing : MiniBlock := { hash := [0xab], sender := 0, receiver := 1, txHashes := [[1], [2]] }
def crossingSent : Header := { hash := [1], shard := 0, timestamp := 10 }
def crossingReceived : Header := { hash := [2], shard := 1, timestamp := 10 }

def crossingStored : Option Value :=
  miniBlockAfter [(crossingSent, ⟨[crossing]⟩), (crossingSent, ⟨[crossing]⟩)] crossing.hashHex

theorem undo_received_miniBlock_sent :
    crossingStored.isSome = true ∧ ∃ write revert,
      (miniBlockWrites crossingReceived ⟨[crossing]⟩).filter (·.id = crossing.hashHex) = [write] ∧
      (miniBlockReverts crossingReceived ⟨[crossing]⟩).filter (·.id = crossing.hashHex) = [revert] ∧
      revert.action.apply (write.action.apply crossingStored) =
        some (crossingStored.getD (.record crossing.sharedFields)) := by
  have hsent : crossing.SentBy (crossingSent, ⟨[crossing]⟩) := ⟨rfl, by simp⟩
  have hblocks : ∀ block ∈ [(crossingSent, Body.mk [crossing]), (crossingSent, ⟨[crossing]⟩)],
      crossing.SentBy block := by simp [hsent]
  exact ⟨by decide +kernel,
    undo_received_miniBlock List.mem_cons_self rfl (by decide) (by decide) hblocks⟩

/-- Where the sending shard wrote nothing, a document stays behind. -/
theorem received_miniBlock_stays :
    crossing.receiver = crossingReceived.shard ∧ crossing.sender ≠ crossingReceived.shard ∧
      ∃ write revert,
        (miniBlockWrites crossingReceived ⟨[crossing]⟩).filter (·.id = crossing.hashHex) = [write] ∧
        (miniBlockReverts crossingReceived ⟨[crossing]⟩).filter (·.id = crossing.hashHex) = [revert] ∧
        revert.action.apply (write.action.apply none) ≠ none := by
  have honly : (Body.mk [crossing]).miniBlocks.filter (·.hashHex = crossing.hashHex) = [crossing] :=
    Body.filter_hashHex List.mem_cons_self (by decide)
  exact ⟨rfl, by decide, _, _, miniBlockWrites_received rfl honly,
    miniBlockReverts_received (by decide) rfl honly, Option.some_ne_none _⟩

end ChainIndex
