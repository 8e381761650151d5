import ChainIndex.Proofs.Indexer.Calls
import ChainIndex.Proofs.Indexer.Race

/-!
What the document of a transaction has learnt. Blocks only add to it: flags rise, refunds gather, a fee stays, and a
status that was decided is never open again, however the blocks contradict one another and whichever indices are
unavailable while they are saved.
-/
namespace ChainIndex

variable {s : Store} {id : String} {doc : Value}

namespace StatusInfo

variable {known : Option StatusInfo} {signals : List StatusInfo}

def Decided (s : StatusInfo) : Prop :=
  if s.failed then s.status = TxStatus.fail.label ∨ s.status = TxStatus.invalid.label
  else s.status = TxStatus.success.label

theorem decided_ofFlags (c f : Bool) : (ofFlags c f).Decided := by
  cases f <;> simp [Decided, ofFlags]

theorem Decided.latch {known signal : StatusInfo} (hk : known.failed = true → known.Decided)
    (hs : signal.Decided) : (known.latch signal).Decided := by
  cases hf : known.failed <;> cases hg : signal.failed <;> simp_all [Decided, StatusInfo.latch]

theorem Decided.ne_pending {s : StatusInfo} (h : s.Decided) : s.status ≠ TxStatus.pending.label := by
  unfold Decided at h
  split at h
  · rcases h with h | h <;> rw [h] <;> decide
  · rw [h]
    decide

def Rises (known later : Option StatusInfo) : Prop :=
  ∀ s, known = some s →
    ∃ t, later = some t ∧ (s.completed = true → t.completed = true) ∧ (s.failed = true → t.failed = true)

theorem Rises.refl (known : Option StatusInfo) : Rises known known := fun s hs => ⟨s, hs, fun h => h, fun h => h⟩

theorem Rises.trans {known later last : Option StatusInfo} (h : Rises known later) (hl : Rises later last) :
    Rises known last := by
  intro s hs
  obtain ⟨t, ht, hcompleted, hfailed⟩ := h s hs
  obtain ⟨u, hu, hcompleted', hfailed'⟩ := hl t ht
  exact ⟨u, hu, fun hc => hcompleted' (hcompleted hc), fun hf => hfailed' (hfailed hf)⟩

theorem rises_latchOn (label : Option String) (known : Option StatusInfo) (signal : StatusInfo) :
    Rises known (latchOn label known signal) := by
  rintro s rfl
  exact ⟨_, rfl, fun hc => by simp [latch, hc], fun hf => by simp [latch, hf]⟩

/-- Signals that are decided leave a status that is. -/
theorem foldl_latchOn (label : Option String) (hk : ∀ s, known = some s → s.Decided)
    (hs : ∀ s ∈ signals, s.Decided) :
    Rises known (signals.foldl (latchOn label) known) ∧
      ∀ s, signals.foldl (latchOn label) known = some s → s.Decided := by
  induction signals generalizing known with
  | nil => exact ⟨Rises.refl known, hk⟩
  | cons signal rest ih =>
    obtain ⟨hsignal, hrest⟩ := List.forall_mem_cons.1 hs
    have hlatched : ∀ s, latchOn label known signal = some s → s.Decided := by
      intro s hl
      obtain rfl := Option.some.inj hl
      refine Decided.latch (fun hf => ?_) hsignal
      cases known with
      | none => cases hf
      | some s => exact hk s rfl
    obtain ⟨hrises, hdecided⟩ := ih hlatched hrest
    exact ⟨(rises_latchOn label known signal).trans hrises, hdecided⟩

end StatusInfo

open StatusInfo

theorem PassStatus.decided_signal? {p : PassStatus} {signal : StatusInfo} (h : p.signal? = some signal) :
    signal.Decided := by
  cases p with
  | pending => cases h
  | executed =>
    obtain rfl := Option.some.inj h
    simp [Decided]
  | invalid =>
    obtain rfl := Option.some.inj h
    simp [Decided]

theorem Indexer.decided_signals (ix : Indexer) (block : Block) {signal : StatusInfo}
    (h : (ix.signals block).find? id = some signal) : signal.Decided := by
  obtain ⟨c, f, rfl⟩ := (Registry.plain_processLogs ix.registry block.pool block.header.timestamp).2 id signal h
  exact decided_ofFlags c f

def sentLabel (sent : Bool) : Option String := if sent then some TxStatus.pending.label else none

/-- What a document shows of its transaction's outcome, and whether it is marked as one with results. -/
structure Value.Tells (known : Option StatusInfo) (sent : Bool) (doc : Value) : Prop where
  shows : StatusInfo.Shows known (sentLabel sent) doc
  decided : ∀ s, known = some s → s.Decided
  marked : doc.get? Rollback.hasScResults = none ∨ doc.get? Rollback.hasScResults = some (.bool true)

/-- Nothing that the earlier document has learnt is missing in the later one. -/
structure Value.Retained (earlier later : Value) : Prop where
  flags : ∀ key ∈ ["errorEvent", "completedEvent", "hasScResults"],
    earlier.get? key = some (.bool true) → later.get? key = some (.bool true)
  refunds : ∀ hash, ((earlier.get? "feeRefunds").bind (·.get? hash)).isSome →
    ((later.get? "feeRefunds").bind (·.get? hash)).isSome
  fee : (earlier.get? "fee").isSome → (later.get? "fee").isSome
  status : (earlier.get? "status").isSome → (later.get? "status").isSome
  decided : (earlier.get? "status").isSome → earlier.get? "status" ≠ some (.str "pending") →
    later.get? "status" ≠ some (.str "pending")

/-- A status is one of four, and after a failure one of two. -/
structure Value.Labelled (doc : Value) : Prop where
  known : ∀ v, doc.get? "status" = some v → v ∈ ["pending", "success", "fail", "invalid"].map Value.str
  failed : doc.get? "errorEvent" = some (.bool true) →
    doc.get? "status" = some (.str "fail") ∨ doc.get? "status" = some (.str "invalid")

namespace Value

variable {known later : Option StatusInfo} {sent sent' : Bool} {other : Value}

theorem Retained.refl (doc : Value) : Retained doc doc :=
  ⟨fun _ _ h => h, fun _ h => h, fun h => h, fun h => h, fun _ h => h⟩

theorem Retained.trans {u v w : Value} (h : Retained u v) (hw : Retained v w) : Retained u w where
  flags key hk ht := hw.flags key hk (h.flags key hk ht)
  refunds hash hr := hw.refunds hash (h.refunds hash hr)
  fee hf := hw.fee (h.fee hf)
  status hs := hw.status (h.status hs)
  decided hs hp := hw.decided (h.status hs) (h.decided hs hp)

theorem tells_empty : Tells none false .empty := ⟨shows_empty, nofun, .inl rfl⟩

/-- A document that shows what was learnt has one of the four labels. -/
theorem Tells.labelled (h : Tells known sent doc) : doc.Labelled := by
  refine ⟨fun v hv => ?_, fun hf => ?_⟩
  · rw [h.shows.status] at hv
    cases known with
    | none =>
      cases sent with
      | false => cases hv
      | true =>
        obtain rfl := Option.some.inj hv
        simp [TxStatus.label]
    | some s =>
      obtain rfl : .str s.status = v := by simpa using hv
      have hd := h.decided s rfl
      unfold Decided at hd
      split at hd
      · rcases hd with hd | hd <;> simp [hd, TxStatus.label]
      · simp [hd, TxStatus.label]
  · rw [h.shows.failed] at hf
    rw [h.shows.status]
    cases known with
    | none => cases hf
    | some s =>
      have hfailed : s.failed = true := by simpa using hf
      have hd := h.decided s rfl
      rw [Decided, if_pos hfailed] at hd
      simpa [TxStatus.label] using hd

/-- Whether a refund is stored can be read off the document. -/
theorem has_storedRefunds (doc : Value) (hash : String) :
    (Fee.storedRefunds doc).has hash = ((doc.get? Fee.refundsField).bind (·.get? hash)).isSome := by
  unfold Fee.storedRefunds Dict.has
  cases hg : doc.get? Fee.refundsField with
  | none => rfl
  | some v =>
    cases v with
    | obj fields => simp [Dict.find?_map fields fun _ v => Fee.refundOfValue v]
    | _ => rfl

section Risen

variable (h : Tells known sent doc) (ho : Tells later sent' other) (hr : Rises known later)

include h ho hr

theorem Tells.failed_of_rises (hf : doc.get? "errorEvent" = some (.bool true)) :
    other.get? "errorEvent" = some (.bool true) := by
  rw [h.shows.failed, Option.map_eq_some_iff] at hf
  obtain ⟨s, hknown, hs⟩ := hf
  obtain ⟨t, hlater, -, hfailed⟩ := hr s hknown
  rw [ho.shows.failed, hlater, Option.map_some, hfailed (by simpa using hs)]

theorem Tells.completed_of_rises (hc : doc.get? "completedEvent" = some (.bool true)) :
    other.get? "completedEvent" = some (.bool true) := by
  rw [h.shows.completed, Option.map_eq_some_iff] at hc
  obtain ⟨s, hknown, hs⟩ := hc
  obtain ⟨t, hlater, hcompleted, -⟩ := hr s hknown
  rw [ho.shows.completed, hlater, Option.map_some, hcompleted (by simpa using hs)]

/-- A status comes from what was latched, or from a block that sent the transaction; either stays. -/
theorem Tells.isSome_status_of_rises (hsent : sent = true → sent' = true)
    (hs : (doc.get? "status").isSome) : (other.get? "status").isSome := by
  rw [h.shows.status] at hs
  rw [ho.shows.status]
  cases hknown : known with
  | some s =>
    obtain ⟨t, hlater, -⟩ := hr s hknown
    rw [hlater]
    rfl
  | none =>
    rw [hknown] at hs
    cases sent with
    | false => cases hs
    | true =>
      rw [hsent rfl]
      cases later <;> rfl

/-- A status that is not pending was latched. -/
theorem Tells.ne_pending_of_rises (hs : (doc.get? "status").isSome)
    (hp : doc.get? "status" ≠ some (.str "pending")) : other.get? "status" ≠ some (.str "pending") := by
  rw [h.shows.status] at hs hp
  rw [ho.shows.status]
  cases hknown : known with
  | none =>
    rw [hknown] at hs hp
    cases sent with
    | false => cases hs
    | true => exact absurd rfl hp
  | some s =>
    obtain ⟨t, hlater, -⟩ := hr s hknown
    have hne := (ho.decided t hlater).ne_pending
    rw [hlater]
    intro he
    exact hne (by simpa using he : t.status = "pending")

/-- Where the outcome rises and all else is kept, nothing is missing. -/
theorem Tells.retained (hsent : sent = true → sent' = true)
    (marked : doc.get? Rollback.hasScResults = some (.bool true) →
      other.get? Rollback.hasScResults = some (.bool true))
    (refunds : ∀ hash, (Fee.storedRefunds doc).has hash = true → (Fee.storedRefunds other).has hash = true)
    (fee : (doc.get? Fee.feeField).isSome → (other.get? Fee.feeField).isSome) : doc.Retained other where
  flags key hk ht := by
    simp only [List.mem_cons, List.not_mem_nil, or_false] at hk
    rcases hk with rfl | rfl | rfl
    · exact h.failed_of_rises ho hr ht
    · exact h.completed_of_rises ho hr ht
    · exact marked ht
  refunds hash hd :=
    (other.has_storedRefunds hash).symm.trans (refunds hash ((doc.has_storedRefunds hash).trans hd))
  fee := fee
  status := h.isSome_status_of_rises ho hr hsent
  decided := h.ne_pending_of_rises ho hr

end Risen

end Value

namespace CorrelatedTx

variable (tx : CorrelatedTx)

theorem label_sentLabel (sent : Bool) :
    tx.label (sentLabel sent) = sentLabel (sent || tx.status.signal?.isNone) := by
  unfold label
  cases tx.status.signal? <;> cases sent <;> rfl

theorem decided_signals (h : ∀ signal, tx.signal = some signal → signal.Decided) : ∀ s ∈ tx.signals, s.Decided := by
  intro s hs
  rcases List.mem_append.1 hs with hs | hs
  · exact PassStatus.decided_signal? (Option.mem_toList.1 hs)
  · exact h s (Option.mem_toList.1 hs)

/-- A block that holds the transaction knows of all refunds that are stored. -/
theorem has_storedRefunds {fee : Amount} {gas : UInt64} {refunds : Dict Refund} {d : Denomination}
    (hfee : tx.fee = .absolute fee gas refunds d) (name : String) {hash : String}
    (h : (Fee.storedRefunds doc).has hash = true) :
    (Fee.storedRefunds (tx.enterInto name doc)).has hash = true := by
  rw [Fee.storedRefunds_congr (tx.agreeOn_enterInto_fee name doc), hfee, FeeWrite.storedRefunds_absolute, Dict.has,
    Dict.find?_extend, Option.isSome_or]
  exact Bool.or_eq_true_iff.2 (.inr h)

end CorrelatedTx

/-- A refund that is stored stays stored. -/
theorem ForeignUpdate.has_storedRefunds (u : ForeignUpdate) (d : Denomination) (name : String) {hash : String}
    (h : (Fee.storedRefunds doc).has hash = true) :
    (Fee.storedRefunds (u.addTo d name doc)).has hash = true := by
  rw [Fee.storedRefunds_congr (u.agreeOn_addTo_fee d name doc)]
  rw [← Fee.storedRefunds_congr (u.agreeOn_marked doc)] at h
  refine List.foldlRecOn (motive := fun doc => (Fee.storedRefunds doc).has hash = true) _ _ h fun doc hd m hm => ?_
  obtain ⟨e, -, rfl⟩ := List.mem_map.1 hm
  exact FeeWrite.has_relativeAdjust hd e.1 e.2 d

namespace Indexer

variable (ix : Indexer) (block : Block) {known : Option StatusInfo} {sent : Bool} {stored : Option Value}

/-- A block that writes a transaction leaves all that its document has learnt. -/
theorem retained_recordAfter (h : Value.Tells known sent (stored.getD .empty))
    (hd : ix.recordAfter block Index.transactions id stored = some doc) :
    (∃ known sent, Value.Tells known sent doc) ∧ (stored.getD .empty).Retained doc := by
  have hmark := ix.get?_hasScResults block h.marked hd
  have hname : Index.transactions ≠ Index.operations := by decide
  replace hmark := hmark.resolve_left fun hop => hname hop.1
  have hmarked : doc.get? Rollback.hasScResults = none ∨ doc.get? Rollback.hasScResults = some (.bool true) := by
    rw [hmark]
    split
    · exact .inr rfl
    · exact h.marked
  have hkept : (stored.getD .empty).get? Rollback.hasScResults = some (.bool true) →
      doc.get? Rollback.hasScResults = some (.bool true) := by
    intro hold
    rw [hmark, hold, ite_self]
  have huntyped (ms : List Mutation) : ms ++ typing Index.transactions = ms := List.append_nil ms
  rcases ix.recordAfter_cases block hd with ⟨-, -, hop, -⟩ | ⟨info, -, rfl⟩ | ⟨-, rfl⟩ | ⟨rfl, -⟩
  · exact absurd hop hname
  · obtain ⟨fee, gas, refunds, d, hfee⟩ := ix.heldTx_fee block id info
    have hshows := (ix.heldTx block id info).showsStatus_mutations h.shows
    obtain ⟨hrises, hdecided⟩ := foldl_latchOn ((ix.heldTx block id info).label (sentLabel sent)) h.decided
      ((ix.heldTx block id info).decided_signals fun signal hs => ix.decided_signals block hs)
    rw [(ix.heldTx block id info).label_sentLabel] at hshows hrises hdecided
    rw [huntyped] at hmarked hkept ⊢
    have htells := Value.Tells.mk hshows hdecided hmarked
    refine ⟨⟨_, _, htells⟩, h.retained htells hrises (fun hs => by simp [hs]) hkept (fun hash hr => ?_) fun _ => ?_⟩
    · have hentered := (ix.heldTx block id info).has_storedRefunds hfee Index.transactions hr
      rwa [CorrelatedTx.enterInto, huntyped] at hentered
    · exact (ix.heldTx block id info).isSome_get?_fee hfee
  · have hshows := (ix.foreignUpdate block id).showsStatus_mutations h.shows ix.denomination
    have hsignals : ∀ s ∈ (ix.foreignUpdate block id).signal.toList, s.Decided := fun s hs =>
      ix.decided_signals block (Option.mem_toList.1 hs)
    obtain ⟨hrises, hdecided⟩ := foldl_latchOn (sentLabel sent) h.decided hsignals
    rw [huntyped] at hmarked hkept ⊢
    have htells := Value.Tells.mk hshows hdecided hmarked
    refine ⟨⟨_, _, htells⟩, h.retained htells hrises (fun hs => hs) hkept (fun hash hr => ?_) fun hf => ?_⟩
    · have hadded := (ix.foreignUpdate block id).has_storedRefunds ix.denomination Index.transactions hr
      rwa [ForeignUpdate.addTo, huntyped] at hadded
    · exact Mutation.isSome_get?_applyAll ((ix.foreignUpdate block id).keepsFee _) hf
  · exact ⟨⟨known, sent, h⟩, Value.Retained.refl doc⟩

end Indexer

namespace Call

def Telling (id : String) (s : Store) : Prop :=
  ∀ doc, s.get? Index.transactions id = some doc → ∃ known sent, Value.Tells known sent doc

variable {call : Call}

/-- A save leaves all that a document has learnt. -/
theorem retained_perform (hs : s.Usable) (hsaves : call.Saves) (ho : call.Ordered) (h : Telling id s) :
    Telling id (call.perform s) ∧ ∀ doc, s.get? Index.transactions id = some doc →
      ∃ later, (call.perform s).get? Index.transactions id = some later ∧ doc.Retained later := by
  cases call with
  | revert ix header body down => exact hsaves.elim
  | save ix block down =>
    have hn : Index.transactions ∈ Index.records := by decide
    obtain ⟨known, sent, htells⟩ :
        ∃ known sent, Value.Tells known sent ((s.get? Index.transactions id).getD .empty) := by
      cases hg : s.get? Index.transactions id with
      | none => exact ⟨none, false, Value.tells_empty⟩
      | some doc => exact h doc hg
    unfold Telling
    rcases get?_perform_save ix down hs ho hn with ⟨-, hget⟩ | hget
    · rw [hget]
      exact ⟨h, fun doc hd => ⟨doc, hd, Value.Retained.refl doc⟩⟩
    · rw [hget]
      refine ⟨fun doc hd => (ix.retained_recordAfter block htells hd).1, fun doc hd => ?_⟩
      cases hafter : ix.recordAfter block Index.transactions id (s.get? Index.transactions id) with
      | none =>
        rw [(ix.recordAfter_eq_none block hafter).1] at hd
        cases hd
      | some later =>
        have hretained := (ix.retained_recordAfter block htells hafter).2
        rw [hd] at hretained
        exact ⟨later, rfl, hretained⟩

theorem telling_performAll {calls : List Call} (hs : s.Usable) (hsaves : ∀ call ∈ calls, call.Saves)
    (ho : ∀ call ∈ calls, call.Ordered) (h : Telling id s) : Telling id (performAll calls s) :=
  (performAll_induction hs h fun call hc _ ht htelling =>
    (retained_perform ht (hsaves call hc) (ho call hc) htelling).1).2

/-- Saves never make a document unlearn. -/
theorem retained_performAll {calls : List Call} (hs : s.Usable) (hsaves : ∀ call ∈ calls, call.Saves)
    (ho : ∀ call ∈ calls, call.Ordered) (h : Telling id s) {doc : Value}
    (hd : s.get? Index.transactions id = some doc) :
    ∃ later, (performAll calls s).get? Index.transactions id = some later ∧ doc.Retained later := by
  have hlast := performAll_induction (P := fun t => Telling id t ∧ ∃ later,
    t.get? Index.transactions id = some later ∧ doc.Retained later) hs ⟨h, doc, hd, Value.Retained.refl doc⟩
    fun call hc t ht ⟨htelling, later, hlater, hretained⟩ => by
      obtain ⟨hnext, hstep⟩ := retained_perform ht (hsaves call hc) (ho call hc) htelling
      obtain ⟨last, hlast, hmore⟩ := hstep later hlater
      exact ⟨hnext, last, hlast, hretained.trans hmore⟩
  exact hlast.2.2

/-- What the document of a transaction has learnt, saves never make it unlearn. The calls before are saves that reach
any state from an empty store, whatever indices are unavailable during each of them, and so are the calls after. In
that state the status is one of four, and of two after a failure; the later document is there, and in it no flag is
lowered, no refund is missing, a fee is still there, and so is a status, which is not pending once it was another. -/
theorem saves_never_unlearn (n : Nat) {before later : List Call} (hsaves : ∀ call ∈ before ++ later, call.Saves)
    (ho : ∀ call ∈ before ++ later, call.Ordered) {id : String} {doc : Value}
    (hd : (performAll before (Store.withPageSize n)).get? Index.transactions id = some doc) :
    doc.Labelled ∧ ∃ now, (performAll (before ++ later) (Store.withPageSize n)).get? Index.transactions id = some now ∧
      now.Labelled ∧ doc.Retained now := by
  have hempty := Store.usable_withPageSize n
  have hstart : Telling id (Store.withPageSize n) := nofun
  obtain ⟨hbefore, hlater⟩ := List.forall_mem_append.1 hsaves
  obtain ⟨hob, hol⟩ := List.forall_mem_append.1 ho
  have htelling := telling_performAll hempty hbefore hob hstart
  obtain ⟨_, _, htells⟩ := htelling doc hd
  obtain ⟨now, hnow, hretained⟩ := retained_performAll (usable_performAll before hempty) hlater hol htelling hd
  have hsplit : performAll (before ++ later) (Store.withPageSize n) =
      performAll later (performAll before (Store.withPageSize n)) := List.foldl_append
  rw [← hsplit] at hnow
  obtain ⟨_, _, hlast⟩ := telling_performAll hempty hsaves ho hstart now hnow
  exact ⟨htells.labelled, now, hnow, hlast.labelled, hretained⟩

/-- A result that failed and gives a refund comes first. Then the block that sends the transaction is saved twice,
the first time without the operations. -/
theorem saves_never_unlearn_sent :
    let ix : Indexer := {}
    let refund : ScResultInfo :=
      { result := { originTxHash := [0xaa] }, feeInfo := { fee := ⟨100000, by decide⟩, gasRefunded := 5000 } }
    let failed : Log := { txHash := "b1", events := [{ identifier := "signalError" }] }
    let first : Block := { header := { hash := [1] }, pool := { scResults := [("b1", refund)], logs := [failed] } }
    let second : Block :=
      { header := { hash := [2] }, body := ⟨[{ hash := [0x5c], receiver := 1, txHashes := [[0xaa]] }]⟩
        pool := { transactions := [("aa", {})] } }
    let before : List Call := [.save ix first [Index.blocks]]
    let later : List Call := [.save ix second [Index.operations], .save ix second []]
    (ix.heldTx second "aa" {}).status = .pending ∧ (∀ call ∈ before ++ later, call.Saves) ∧
      (∀ call ∈ before ++ later, call.Ordered) ∧
      ∃ now, (performAll (before ++ later) (Store.withPageSize 10)).get? Index.transactions "aa" = some now ∧
        now.get? "errorEvent" = some (.bool true) ∧ now.get? "hasScResults" = some (.bool true) ∧
        ((now.get? "feeRefunds").bind (·.get? "b1")).isSome ∧ now.get? "status" ≠ some (.str "pending") := by
  intro ix refund failed first second before later
  have hfirst : first.Ordered := ⟨List.Pairwise.nil, by simp [first, Dict.Sorted]⟩
  have hsecond : second.Ordered := ⟨by simp [second, Dict.Sorted], List.Pairwise.nil⟩
  have hsaves : ∀ call ∈ before ++ later, call.Saves := by simp [before, later, Saves]
  have hordered : ∀ call ∈ before ++ later, call.Ordered := by simp [before, later, Ordered, hfirst, hsecond]
  have hsaved : (performAll before (Store.withPageSize 10)).get? Index.transactions "aa" =
      ix.recordAfter first Index.transactions "aa" none := by
    rcases get?_perform_save ix [Index.blocks] (Store.usable_withPageSize 10) hfirst
      (by decide : Index.transactions ∈ Index.records) with ⟨hdown, -⟩ | hget
    · exact absurd hdown (by decide)
    · exact hget "aa"
  have hflags : ∀ key ∈ ["errorEvent", "hasScResults"],
      ((ix.recordAfter first Index.transactions "aa" none).bind (·.get? key)).bind Value.bool? = some true := by
    decide +kernel
  have hrefund : (((ix.recordAfter first Index.transactions "aa" none).bind (·.get? "feeRefunds")).bind
      (·.get? "b1")).isSome = true := by decide +kernel
  have hstatus : ((ix.recordAfter first Index.transactions "aa" none).bind (·.get? "status")).bind Value.text? =
      some "fail" := by decide +kernel
  obtain ⟨doc, hdoc⟩ : ∃ doc, ix.recordAfter first Index.transactions "aa" none = some doc :=
    Option.isSome_iff_exists.1 (by decide +kernel)
  rw [hdoc] at hsaved hflags hrefund hstatus
  have hup (key : String) (hk : key ∈ ["errorEvent", "hasScResults"]) : doc.get? key = some (.bool true) := by
    obtain ⟨v, hv, hb⟩ := Option.bind_eq_some_iff.1 (hflags key hk)
    cases v <;> simp_all [Value.bool?]
  obtain ⟨label, hlabel, htext⟩ := Option.bind_eq_some_iff.1 hstatus
  obtain ⟨-, now, hnow, -, hretained⟩ := saves_never_unlearn 10 hsaves hordered hsaved
  refine ⟨by decide, hsaves, hordered, now, hnow, ?_, ?_, hretained.refunds "b1" hrefund, ?_⟩
  · exact hretained.flags _ (by simp) (hup _ (by simp))
  · exact hretained.flags _ (by simp) (hup _ (by simp))
  · refine hretained.decided (Option.isSome_of_eq_some hlabel) fun hpending => ?_
    obtain rfl := Option.some.inj (hlabel.symm.trans hpending)
    exact absurd htext (by decide)

end Call
end ChainIndex
