import ChainIndex.Proofs.Decimal
import ChainIndex.Proofs.Indexer.Calls
import ChainIndex.Proofs.Indexer.FailedSaves
import ChainIndex.Proofs.Write.Query

/-!
Balances by the block that wrote them last. In every run each stored balance carries the time stamp and the shard
of that block, so a removal by time stamp and shard takes exactly the balances that such a block wrote last. Within
a block the last occurrence of a balance decides.
-/
namespace ChainIndex

variable {s t : Store} {down names : List String} {name id : String}

namespace Session

variable {α : Type}

theorem Within.index_of_mem_sent {p : Session α} (hp : p.Within names) (s : Store) :
    ∀ w ∈ p.sent s, w.1 ∈ names := by
  induction p generalizing s with
  | done x => exact fun w hw => absurd hw List.not_mem_nil
  | call c next ih =>
    obtain ⟨hc, hnext⟩ := hp
    intro w hw
    rcases List.mem_append.1 hw with hw | hw
    · have hindex : w.1 = c.index := by
        cases c with
        | bulkUpsert index items =>
          obtain ⟨item, -, rfl⟩ := List.mem_map.1 hw
          rfl
        | _ => cases hw
      exact hindex ▸ hc
    · exact ih _ (hnext _) _ w hw

/-- A procedure that calls no unavailable index sends what it sends when all are available. -/
theorem Within.sent_withUnavailable {p : Session α} (hp : p.Within names) (hs : s.unavailable = [])
    (hn : ∀ name ∈ names, name ∉ down) : p.sent (s.withUnavailable down) = p.sent s := by
  induction p generalizing s with
  | done x => rfl
  | call c next ih =>
    obtain ⟨hc, hnext⟩ := hp
    have hanswer := Store.answer_withUnavailable hs (hn _ hc)
    rw [sent, sent, hanswer]
    exact congrArg (c.writes ++ ·) (ih _ (hnext _) ((s.unavailable_answer c).trans hs))

end Session

namespace Flush

/-- An available index gets its writes, whatever becomes of the others. -/
theorem mem_sent_flushIndices (limit : Nat) (indices : Dict (Dict WriteAction)) (h : s.Usable) (hd : name ∉ down)
    (item : WriteItem) :
    (name, item) ∈ (flushIndices limit indices).sent (s.withUnavailable down) ↔
      ∃ docs, (name, docs) ∈ indices ∧ (item.id, item.action) ∈ docs := by
  induction indices generalizing s with
  | nil =>
    refine ⟨fun hm => absurd hm List.not_mem_nil, ?_⟩
    rintro ⟨_, hm, -⟩
    exact absurd hm List.not_mem_nil
  | cons e rest ih =>
    obtain ⟨index, docs⟩ := e
    have hfirst : Session.sent (do
        let written ← (flushIndex limit index docs).run
        return (index, written)) (s.withUnavailable down) =
          Session.sent (flushIndex limit index docs).run (s.withUnavailable down) := Session.sent_bind_done _ _ _
    have hwithin := within_flushIndex limit index docs
    rw [flushIndices, List.map_cons, Session.sent_all_cons, Session.run_withUnavailable_snd, List.mem_append]
    rw [flushIndices] at ih
    simp only [hfirst]
    rw [ih (Session.usable_attempt h _ down)]
    simp only [List.mem_cons, Prod.mk.injEq, or_and_right, exists_or]
    refine or_congr_left ?_
    by_cases he : index = name
    · subst he
      have hsent := hwithin.sent_withUnavailable h.available (List.forall_mem_singleton.2 hd)
      rw [hsent, sent_flushIndex limit index docs h]
      cases item
      simp
    · have hnot : (name, item) ∉ Session.sent (flushIndex limit index docs).run (s.withUnavailable down) := by
        intro hm
        exact he (List.mem_singleton.1 (hwithin.index_of_mem_sent _ _ hm)).symm
      refine ⟨fun hm => absurd hm hnot, ?_⟩
      rintro ⟨_, ⟨rfl, -⟩, -⟩
      exact absurd rfl he

end Flush

namespace WriteItem

/-- Where all writes are absolute the last one to a document decides. -/
theorem applyAt_eq_getLast {items : List WriteItem} (h : ∀ item ∈ items, item.action.IsAbsolute)
    (stored : Option Value) :
    applyAt id items stored = match (items.filter fun item => item.id = id).getLast? with
      | some item => item.action.apply none
      | none => stored := by
  induction items using List.reverseRecOn with
  | nil => rfl
  | append_singleton items item ih =>
    have hitems := ih fun other ho => h other (List.mem_append_left _ ho)
    have hitem := h item (List.mem_append_right _ (List.mem_singleton_self _))
    rw [applyAt_append, applyAt_cons, applyAt_nil, List.filter_append]
    by_cases hid : item.id = id
    · rw [if_pos hid, hitem.apply_eq _ none]
      simp [hid]
    · rw [if_neg hid, hitems]
      simp [hid]

end WriteItem

/-- A balance of zero is an empty text or one of zeros only, maybe behind a plus sign. -/
theorem isZeroBalance_iff {balance : String} : isZeroBalance balance = true ↔ balance = "" ∨
    ∃ zeros, zeros ≠ [] ∧ (∀ c ∈ zeros, c = '0') ∧ (balance.toList = zeros ∨ balance.toList = '+' :: zeros) := by
  rw [isZeroBalance, Bool.or_eq_true, String.isEmpty_iff, ← Decimal.natural?_eq_zero_iff, Amount.ofText?]
  refine or_congr_right ?_
  cases Decimal.natural? balance with
  | none => simp
  | some n =>
    rw [Option.bind_some, Amount.ofNat?, Option.some.injEq]
    split
    · exact beq_iff_eq
    · next hlarge =>
      have hpos : n ≠ 0 := fun h => hlarge (h ▸ by decide)
      exact iff_of_false Bool.false_ne_true hpos

/-- The entries of the altered accounts for one balance, each with its address. -/
def Block.balancesOf (block : Block) (id : String) : List (String × TokenBalance) :=
  block.accounts.values.flatMap fun a =>
    (a.tokens.filter fun t => balanceId a.address t.identifier t.nonce = id).map (a.address, ·)

def Value.WrittenBy (header : Header) (doc : Value) : Prop :=
  doc.get? "timestamp" = some (.nat header.timestamp) ∧ doc.get? "shardID" = some (.nat header.shard.toUInt64)

/-- A removal selects by the block that wrote the balance. -/
theorem Value.WrittenBy.selects {header : Header} {doc : Value} (h : doc.WrittenBy header) (timestamp : UInt64)
    (shard : UInt32) : (Query.writtenByBlock timestamp shard).selects doc =
      decide (header.timestamp = timestamp ∧ header.shard = shard) := by
  have hinj : header.shard.toUInt64 = shard.toUInt64 ↔ header.shard = shard := UInt32.toUInt64_inj
  rw [Bool.eq_iff_iff, Query.selects_writtenByBlock_iff, h.1, h.2, decide_eq_true_iff, Option.some.injEq,
    Option.some.injEq, Value.nat.injEq, Value.nat.injEq, hinj]

namespace BalanceWriter

/-- A balance carries the time stamp and the shard of its block. -/
theorem writtenBy_document (w : BalanceWriter) (address : String) (t : TokenBalance) :
    (w.document address t).get? "timestamp" = some (.nat w.timestamp) ∧
      (w.document address t).get? "shardID" = some (.nat w.shard.toUInt64) := by
  unfold document
  dsimp only
  rw [Value.get?_record, Value.get?_record, List.reverse_append, List.reverse_append, Dict.find?_append,
    Dict.find?_append, Dict.find?_append, Dict.find?_append]
  constructor
  · cases t.metadata <;> by_cases hp : t.properties.isEmpty = true <;> simp [hp, Dict.find?]
  · cases t.metadata <;> by_cases hp : t.properties.isEmpty = true <;> simp [hp, Dict.find?]

/-- The writes to one balance are the block's entries for it, in order. -/
theorem filter_writes (w : BalanceWriter) (block : Block) (id : String) :
    (w.writes block.accounts).filter (fun item => item.id = id) =
      (block.balancesOf id).map fun e => w.write e.1 e.2 := by
  rw [writes, Block.balancesOf, List.filter_flatMap, List.map_flatMap]
  refine List.flatMap_congr fun a _ => ?_
  rw [List.filter_map, List.map_map]
  rfl

/-- What a block makes of a balance: the last of its entries decides. -/
theorem applyAt_writes (w : BalanceWriter) (block : Block) (id : String) (stored : Option Value) :
    WriteItem.applyAt id (w.writes block.accounts) stored = match (block.balancesOf id).getLast? with
      | some (address, t) => if isZeroBalance t.balance then none else some (w.document address t)
      | none => stored := by
  rw [WriteItem.applyAt_eq_getLast (w.isAbsolute_writes block.accounts), filter_writes, List.getLast?_map]
  cases (block.balancesOf id).getLast? with
  | none => rfl
  | some e =>
    simp only [Option.map_some, write]
    split <;> rfl

end BalanceWriter

namespace Indexer

variable (ix : Indexer) (block : Block)

def WritesBalance (down : List String) (s : Store) (id : String) : Prop :=
  Index.balances ∉ down ∧
    ∃ w ∈ (ix.save block).sent (s.withUnavailable down), w.1 = Index.balances ∧ w.2.id = id

instance (down : List String) (s : Store) (id : String) : Decidable (ix.WritesBalance block down s id) :=
  inferInstanceAs (Decidable (_ ∧ _))

/-- Looking tokens up writes nothing but, at most, to them. -/
theorem not_mem_sent_tokenWrites (hne : name ≠ Index.tokens) (item : WriteItem) (s : Store) :
    (name, item) ∉ Session.sent (TokenWrites.tokenWrites (ix.accumulate block)).run s := fun hm =>
  hne (List.mem_singleton.1 ((TokenWrites.within_tokenWrites _).index_of_mem_sent s _ hm))

/-- Without the tokens, where the block needs them, a save sends nothing to other indices. -/
theorem not_mem_sent_save_of_lookup (hd : Index.tokens ∈ down)
    (hn : TokenWrites.NeedsLookup (ix.accumulate block)) (hne : name ≠ Index.tokens) (item : WriteItem) :
    (name, item) ∉ (ix.save block).sent (s.withUnavailable down) := by
  have hrun := TokenWrites.stops_tokenWrites hn (s.withUnavailable down) hd
  unfold save
  rw [Session.sent_bind, hrun, List.mem_append, not_or]
  exact ⟨ix.not_mem_sent_tokenWrites block hne item _, List.not_mem_nil⟩

/-- What a save sends to an available index are the writes of its batch. -/
theorem mem_sent_save_of_available (h : s.Usable)
    (hup : Index.tokens ∈ down → ¬TokenWrites.NeedsLookup (ix.accumulate block)) (hd : name ∉ down)
    (hne : name ≠ Index.tokens) (item : WriteItem) : (name, item) ∈ (ix.save block).sent (s.withUnavailable down) ↔
      (ix.batchOn block s).get? name item.id = some item.action := by
  have hrun := TokenWrites.gives_itemsOn_of_available (ix.accumulate block) h hup
  have hordered := ix.ordered_batch block (TokenWrites.itemsOn (ix.accumulate block) s)
  have hflush := Flush.mem_sent_flushIndices ix.config.bulkLimit.toNat (ix.batchOn block s).indices h hd item
  unfold save
  rw [Session.sent_bind, hrun, List.mem_append, or_iff_right (ix.not_mem_sent_tokenWrites block hne item _)]
  have hsent : (Flush.flush ix.config.bulkLimit.toNat (ix.batchOn block s)).sent (s.withUnavailable down) =
      (Flush.flushIndices ix.config.bulkLimit.toNat (ix.batchOn block s).indices).sent (s.withUnavailable down) :=
    Session.sent_bind_done _ _ _
  refine (Iff.of_eq (congrArg ((name, item) ∈ ·) hsent)).trans (hflush.trans ?_)
  rw [WriteBatch.get?, Option.bind_eq_some_iff]
  constructor
  · rintro ⟨docs, hm, hitem⟩
    have hfind := hordered.indices.find?_of_mem hm
    exact ⟨docs, hfind, (hordered.documents name docs hfind).find?_of_mem hitem⟩
  · rintro ⟨docs, hfind, hitem⟩
    exact ⟨docs, Dict.mem_of_find? hfind, Dict.mem_of_find? hitem⟩

/-- A save does to a balance what its block says, if it writes it. -/
theorem get?_savedPartly_balances (h : s.Usable) (down : List String) (id : String) :
    (ix.savedPartly block down s).get? Index.balances id =
      if ix.WritesBalance block down s id then ix.written block Index.balances id (s.get? Index.balances id)
      else s.get? Index.balances id := by
  have hne : Index.balances ≠ Index.tokens := by decide
  by_cases hfails : Index.tokens ∈ down ∧ TokenWrites.NeedsLookup (ix.accumulate block)
  · have hnot : ¬ix.WritesBalance block down s id := by
      rintro ⟨-, ⟨_, item⟩, hm, rfl, -⟩
      exact ix.not_mem_sent_save_of_lookup block hfails.1 hfails.2 hne item hm
    rw [if_neg hnot, ix.savedPartly_of_lookup block h hfails.1 hfails.2]
  have hup := not_and.1 hfails
  rw [ix.get?_savedPartly_of_available block h hup]
  by_cases hd : Index.balances ∈ down
  · rw [if_pos hd, if_neg fun hw => hw.1 hd]
  have hsent := ix.mem_sent_save_of_available block h hup hd hne
  rw [if_neg hd]
  split
  · exact ix.applyAt_batch block _ (by decide) id _
  · next hnot =>
    have hnone : (ix.batchOn block s).get? Index.balances id = none := by
      refine Option.eq_none_iff_forall_not_mem.2 fun action ha => hnot ⟨hd, _, (hsent ⟨id, action⟩).2 ha, rfl, rfl⟩
    rw [WriteBatch.applyAt, hnone]

/-- With the tokens and the balances available the last entry of a balance decides. -/
theorem get?_savedPartly_balances_of_available (h : s.Usable) (ht : Index.tokens ∉ down) (hd : Index.balances ∉ down)
    (id : String) : (ix.savedPartly block down s).get? Index.balances id =
      match (block.balancesOf id).getLast? with
      | some (address, t) =>
        if isZeroBalance t.balance then none else some ((ix.balanceWriter block.header).document address t)
      | none => s.get? Index.balances id := by
  rw [ix.get?_savedPartly_of_available block h fun hm => absurd hm ht, if_neg hd]
  exact (ix.applyAt_batch block _ (by decide) id _).trans (BalanceWriter.applyAt_writes _ block id _)

/-- A balance that a block writes has an entry in the block. -/
theorem balancesOf_ne_nil (h : s.Usable) (hw : ix.WritesBalance block down s id) : block.balancesOf id ≠ [] := by
  have hne : Index.balances ≠ Index.tokens := by decide
  obtain ⟨hd, ⟨_, item⟩, hm, rfl, rfl⟩ := hw
  by_cases hfails : Index.tokens ∈ down ∧ TokenWrites.NeedsLookup (ix.accumulate block)
  · exact absurd hm (ix.not_mem_sent_save_of_lookup block hfails.1 hfails.2 hne item)
  have hwrite := (ix.mem_sent_save_of_available block h (not_and.1 hfails) hd hne item).1 hm
  have hactions : WriteItem.actionsOf item.id ((ix.balanceWriter block.header).writes block.accounts) =
      (block.balancesOf item.id).map fun e => ((ix.balanceWriter block.header).write e.1 e.2).action := by
    rw [WriteItem.actionsOf, BalanceWriter.filter_writes, List.map_map]
    rfl
  have hgroup : ((ix.groups block (TokenWrites.itemsOn (ix.accumulate block) s)).find? Index.balances).getD [] =
      (ix.balanceWriter block.header).writes block.accounts := rfl
  rw [batchOn, get?_batch, hgroup, hactions] at hwrite
  intro hnil
  rw [hnil] at hwrite
  cases hwrite

/-- A balance that a save writes and that is stored afterwards carries the block's time stamp and shard. -/
theorem writtenBy_of_writes (h : s.Usable) (hw : ix.WritesBalance block down s id) {doc : Value}
    (hdoc : (ix.savedPartly block down s).get? Index.balances id = some doc) : doc.WrittenBy block.header := by
  rw [ix.get?_savedPartly_balances block h, if_pos hw] at hdoc
  have hlast := List.getLast?_eq_some_getLast (ix.balancesOf_ne_nil block h hw)
  have hwritten := BalanceWriter.applyAt_writes (ix.balanceWriter block.header) block id (s.get? Index.balances id)
  rw [hlast] at hwritten
  have hdocument := hdoc.symm.trans hwritten
  dsimp only at hdocument
  split at hdocument
  · cases hdocument
  · obtain rfl := Option.some.inj hdocument
    exact BalanceWriter.writtenBy_document _ _ _

end Indexer

/-- A call of an indexer, or a removal of the balances that a block wrote while some indices may be unavailable. -/
inductive Request where
  | call (call : Call)
  | removeBalances (timestamp : UInt64) (shard : UInt32) (down : List String)

namespace Request

def perform (s : Store) : Request → Store
  | call c => c.perform s
  | removeBalances timestamp shard down =>
    (Indexer.removeBalances timestamp shard (s.withUnavailable down)).2.withUnavailable []

def performAll (requests : List Request) (s : Store) : Store := requests.foldl perform s

def writer? (s : Store) (id : String) : Request → Option Header
  | call (.save ix block down) => if ix.WritesBalance block down s id then some block.header else none
  | _ => none

/-- The header of the last block whose save wrote the balance; `known` is that of the saves before. -/
def lastWriter? (id : String) : List Request → Store → Option Header → Option Header
  | [], _, known => known
  | request :: rest, s, known => lastWriter? id rest (request.perform s) ((request.writer? s id).or known)

theorem perform_removeBalances (timestamp : UInt64) (shard : UInt32) (down : List String) (s : Store) :
    (removeBalances timestamp shard down).perform s =
      Session.attempt (Rollback.removeBalances timestamp shard).run down s := rfl

theorem usable_perform (request : Request) (h : s.Usable) : (request.perform s).Usable := by
  cases request with
  | call c => exact c.usable_perform h
  | removeBalances timestamp shard down =>
    exact Session.usable_attempt h (Rollback.removeBalances timestamp shard).run down

end Request

/-- Every stored balance carries the time stamp and the shard of the header that is known for it. -/
def Store.BalancesBy (s : Store) (known : String → Option Header) : Prop :=
  ∀ id doc, s.get? Index.balances id = some doc → ∃ header, known id = some header ∧ doc.WrittenBy header

namespace Store.BalancesBy

variable {known : String → Option Header}

/-- Documents that are stored already are known to be written by their blocks. -/
theorem of_stored (h : s.BalancesBy known) (hsub : ∀ id doc, t.get? Index.balances id = some doc →
    s.get? Index.balances id = some doc) : t.BalancesBy known := fun id doc hd => h id doc (hsub id doc hd)

/-- A request keeps every balance known by its last writer. -/
theorem perform (h : s.BalancesBy known) (hs : s.Usable) (request : Request) :
    (request.perform s).BalancesBy fun id => (request.writer? s id).or (known id) := by
  match request with
  | .call (.save ix block down) =>
    intro id doc hdoc
    have hdoc : (ix.savedPartly block down s).get? Index.balances id = some doc := hdoc
    by_cases hw : ix.WritesBalance block down s id
    · exact ⟨block.header, by simp [Request.writer?, hw], ix.writtenBy_of_writes block hs hw hdoc⟩
    · rw [ix.get?_savedPartly_balances block hs, if_neg hw] at hdoc
      simpa [Request.writer?, hw] using h id doc hdoc
  | .call (.revert ix header body down) =>
    have ht := Call.remainsPartly_perform ix header body down hs
    refine h.of_stored fun id doc hdoc => ?_
    by_cases hd : Index.balances ∈ down
    · exact (ht.failed _ hd id).symm.trans hdoc
    · exact (Option.filter_eq_some_iff.1 ((ht.balances hd id).symm.trans hdoc)).1
  | .removeBalances timestamp shard down =>
    refine h.of_stored fun id doc hdoc => ?_
    have hdelete := StoreM.gives_deleteByQuery hs Index.balances (.writtenByBlock timestamp shard)
    rw [Request.perform_removeBalances, Rollback.removeBalances,
      hdelete.get?_attempt (StoreM.within_deleteByQuery _ _) hs, hs.get?_without, if_pos rfl] at hdoc
    split at hdoc
    · exact hdoc
    · exact (Option.filter_eq_some_iff.1 hdoc).1

/-- So do requests one after the other. -/
theorem performAll (h : s.BalancesBy known) (hs : s.Usable) (requests : List Request) :
    (Request.performAll requests s).Usable ∧
      (Request.performAll requests s).BalancesBy fun id => Request.lastWriter? id requests s (known id) := by
  induction requests generalizing s known with
  | nil => exact ⟨hs, h⟩
  | cons request rest ih => exact ih (h.perform hs request) (request.usable_perform hs)

end Store.BalancesBy

namespace Indexer

theorem removeBalances_eq (h : s.Usable) (timestamp : UInt64) (shard : UInt32) :
    removeBalances timestamp shard s = (.ok (s.selected Index.balances (.writtenByBlock timestamp shard)).length,
      s.without Index.balances (.writtenByBlock timestamp shard)) := by
  have hdelete := StoreM.gives_deleteByQuery h Index.balances (.writtenByBlock timestamp shard)
  unfold removeBalances
  rw [Rollback.removeBalances, hdelete]
  rfl

section Removal

variable {known : String → Option Header} (hk : s.BalancesBy known)

include hk

/-- The header known for a balance is of a block with the time stamp and the shard. -/
theorem selects_iff_known (timestamp : UInt64) (shard : UInt32) {doc : Value}
    (hd : s.get? Index.balances id = some doc) : (Query.writtenByBlock timestamp shard).selects doc =
      (known id).any fun header => header.timestamp = timestamp ∧ header.shard = shard := by
  obtain ⟨header, hknown, hwritten⟩ := hk id doc hd
  rw [hwritten.selects, hknown]
  rfl

/-- A removal takes as many balances as the block was the last writer of. -/
theorem length_selected_balances (h : s.Usable) (timestamp : UInt64) (shard : UInt32) :
    (s.selected Index.balances (.writtenByBlock timestamp shard)).length =
      ((s.index Index.balances).filter fun e =>
        (known e.1).any fun header => header.timestamp = timestamp ∧ header.shard = shard).length := by
  rw [Store.selected, Store.documents, List.filter_map, List.length_map]
  refine congrArg List.length (List.filter_congr fun e he => ?_)
  exact selects_iff_known hk timestamp shard ((h.ordered Index.balances).find?_of_mem he)

/-- A removal takes the balances that the block wrote last, and leaves the others. -/
theorem get?_without_balances (h : s.Usable) (timestamp : UInt64) (shard : UInt32) (id : String) :
    (s.without Index.balances (.writtenByBlock timestamp shard)).get? Index.balances id =
      if (known id).any fun header => header.timestamp = timestamp ∧ header.shard = shard then none
      else s.get? Index.balances id := by
  rw [h.get?_without, if_pos rfl]
  cases hd : s.get? Index.balances id with
  | none => simp
  | some doc =>
    rw [Option.filter_some, selects_iff_known hk timestamp shard hd]
    cases (known id).any _ <;> rfl

end Removal

/-- In every run of saves, reverts and removals each stored balance carries the time stamp and the shard of the block
that wrote it last. So a removal takes exactly the balances whose last block had these, answers how many they are, and
changes nothing else. Among the entries of one block for a balance the last decides: no balance is stored if it is
zero. -/
theorem balances_carry_last_writer (n : Nat) (requests : List Request) :
    let s := Request.performAll requests (Store.withPageSize n)
    let last (id : String) := Request.lastWriter? id requests (Store.withPageSize n) none
    (∀ id doc, s.get? Index.balances id = some doc → ∃ header, last id = some header ∧
        doc.get? "timestamp" = some (.nat header.timestamp) ∧
        doc.get? "shardID" = some (.nat header.shard.toUInt64)) ∧
      (∀ timestamp shard,
        let (answer, after) := removeBalances timestamp shard s
        let taken (id : String) := (last id).any fun header => header.timestamp = timestamp ∧ header.shard = shard
        answer = .ok ((s.index Index.balances).filter fun e => taken e.1).length ∧
          (∀ id, after.get? Index.balances id = if taken id then none else s.get? Index.balances id) ∧
          ∀ name, name ≠ Index.balances → after.index name = s.index name) ∧
      ∀ (ix : Indexer) (block : Block) (down : List String) (id : String), Index.tokens ∉ down →
        Index.balances ∉ down →
        ((Request.call (.save ix block down)).perform s).get? Index.balances id =
          match (block.balancesOf id).getLast? with
          | some (address, t) =>
            if isZeroBalance t.balance then none else some ((ix.balanceWriter block.header).document address t)
          | none => s.get? Index.balances id := by
  intro s last
  have hstart : (Store.withPageSize n).BalancesBy fun _ => none := nofun
  obtain ⟨hs, hk⟩ := hstart.performAll (Store.usable_withPageSize n) requests
  refine ⟨hk, fun timestamp shard => ?_, fun ix block down id ht hd => ?_⟩
  · rw [removeBalances_eq hs]
    refine ⟨congrArg Except.ok (length_selected_balances hk hs timestamp shard),
      get?_without_balances hk hs timestamp shard, fun name hn => ?_⟩
    rw [Store.index_without, if_neg (Ne.symm hn)]
  · exact ix.get?_savedPartly_balances_of_available block hs ht hd id

end Indexer
end ChainIndex
