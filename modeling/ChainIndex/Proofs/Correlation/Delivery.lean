import ChainIndex.Proofs.Correlation.Convergence
import Mathlib.Data.List.Basic

/-!
Deliveries of passes. Two sequences of the same passes leave the same documents of a transaction.
-/
namespace ChainIndex

variable {k : Setting} {h : String} {family seen : List Pass} {p : Pass} {typed : Bool}

namespace Setting

def transactionAfter (k : Setting) (h : String) (passes : List Pass) : Option Value :=
  passes.foldl (fun doc p => WriteItem.applyAt h (k.writes p).transactions doc) none

def operationAfter (k : Setting) (h : String) (passes : List Pass) : Option Value :=
  passes.foldl (fun doc p => WriteItem.applyAt h (k.writes p).operations doc) none

def deliver (k : Setting) (h : String) (typed : Bool) (p : Pass) (stored : Option Value) : Option Value :=
  match k.changes? p h with
  | some ms =>
    some (Mutation.applyAll (ms ++ if typed then [CorrelatedBlock.operationType] else [])
      (stored.getD .empty))
  | none => stored

/-- What a pass writes to the index of transactions is a delivery without a type. -/
theorem applyAt_transactions (hc : Coherent h family) (hp : p ∈ family) (stored : Option Value) :
    WriteItem.applyAt h (k.writes p).transactions stored = k.deliver h false p stored := by
  have hitems := (k.correlator p).applyAt_transactions p.header p.body (k.signals p) h stored
    (hc.sorted p hp).1 (k.sorted_signals p)
  refine Eq.trans hitems ?_
  unfold deliver
  simp only [Bool.false_eq_true, ↓reduceIte, List.append_nil]
  rfl

/-- What it writes to the index of operations is the same delivery with a type, unless a result has the hash. -/
theorem applyAt_operations (hc : Coherent h family) (hp : p ∈ family)
    (hr : p.pool.scResults.find? h = none) (stored : Option Value) :
    WriteItem.applyAt h (k.writes p).operations stored = k.deliver h true p stored := by
  have hitems := (k.correlator p).applyAt_operations p.header p.body (k.signals p) h stored (hc.sorted p hp).1
    (hc.sorted p hp).2 (k.sorted_signals p)
  rw [Correlator.resultDocument, hr] at hitems
  exact hitems

end Setting

/-- The stored document, if any pass touched the transaction, says what the passes say together. -/
structure Stored (k : Setting) (h : String) (typed : Bool) (seen : List Pass) (stored : Option Value) :
    Prop where
  isSome : stored.isSome = seen.any fun p => p.touches h k
  describes : Describes k h (if typed && stored.isSome then some (.str "normal") else none) seen
    (stored.getD .empty)

namespace Stored

variable {stored : Option Value}

theorem none : Stored k h typed [] none := ⟨rfl, by simpa using Describes.empty⟩

theorem ext (hs : Stored k h typed seen stored) {other : Option Value} (ho : Stored k h typed family other)
    (same : ∀ p, p ∈ seen ↔ p ∈ family) : stored = other := by
  have hsome : stored.isSome = other.isSome := by
    rw [hs.isSome, ho.isSome, Bool.eq_iff_iff]
    simp only [List.any_eq_true, same]
  have hdoc := (hsome ▸ hs.describes).ext ho.describes same
  cases stored <;> cases other <;> simp_all

/-- One delivery more. -/
theorem deliver (hs : Stored k h typed seen stored) (hc : Coherent h family) (hp : p ∈ family)
    (hsub : ∀ q ∈ seen, q ∈ family) : Stored k h typed (p :: seen) (k.deliver h typed p stored) := by
  have hfinish {ms : List Mutation} {type : Option Value} {doc : Value}
      (hd : Describes k h type (p :: seen) (Mutation.applyAll ms doc)) (ht : typed = false → type = .none) :
      Describes k h (if typed then some (.str "normal") else .none) (p :: seen)
        (Mutation.applyAll (ms ++ if typed then [CorrelatedBlock.operationType] else []) doc) := by
    rw [Mutation.applyAll_append]
    cases typed with
    | true => exact hd.operationType
    | false => exact ht rfl ▸ hd
  unfold Setting.deliver
  cases hi : p.info? h with
  | some info =>
    rw [p.changes?_of_info? h k hi]
    have hd := hfinish (hs.describes.hold hc hp hsub hi) fun ht => by simp [ht]
    exact ⟨by simp [Pass.touches, hi], by simpa using hd⟩
  | none =>
    rw [p.changes?_of_not_held h k hi]
    cases ht : p.touches h k with
    | true =>
      have hd := hfinish (hs.describes.bring hc hp hsub hi) fun ht => by simp [ht]
      exact ⟨by simp [ht], by simpa using hd⟩
    | false => exact ⟨by simp [ht, hs.isSome], hs.describes.skip ht⟩

/-- Any deliveries of the family. -/
theorem foldl (hc : Coherent h family) (passes : List Pass) (hp : ∀ p ∈ passes, p ∈ family) :
    ∀ seen stored, (∀ q ∈ seen, q ∈ family) → Stored k h typed seen stored →
      Stored k h typed (passes.reverse ++ seen)
        (passes.foldl (fun doc p => k.deliver h typed p doc) stored) := by
  induction passes with
  | nil => exact fun _ _ _ hs => hs
  | cons p rest ih =>
    intro seen stored hsub hs
    have hmem := hp p List.mem_cons_self
    rw [List.reverse_cons, List.append_assoc]
    refine ih (fun q hq => hp q (List.mem_cons_of_mem _ hq)) (p :: seen) _ ?_ (hs.deliver hc hmem hsub)
    intro q hq
    rcases List.mem_cons.1 hq with rfl | hq
    · exact hmem
    · exact hsub q hq

end Stored

/-- What the document of a transaction says after any deliveries of the family. -/
theorem stored_deliveries (hc : Coherent h family) {passes : List Pass} (hp : ∀ p ∈ passes, p ∈ family) :
    Stored k h typed passes.reverse (passes.foldl (fun doc p => k.deliver h typed p doc) none) := by
  simpa using Stored.foldl hc passes hp [] none (by simp) Stored.none

/-- Deliveries of the same passes, whatever their order and repetitions, leave the same document of the
transaction, and the same operation unless its hash is also that of a result. -/
theorem deliveries_converge (hc : Coherent h family) {first second : List Pass}
    (hfirst : ∀ p, p ∈ first ↔ p ∈ family) (hsecond : ∀ p, p ∈ second ↔ p ∈ family) :
    k.transactionAfter h first = k.transactionAfter h second ∧
      ((∀ p ∈ family, p.pool.scResults.has h = false) →
        k.operationAfter h first = k.operationAfter h second) := by
  have hsame : ∀ p, p ∈ first.reverse ↔ p ∈ second.reverse := by
    simp [hfirst, hsecond]
  have hmem : (∀ p ∈ first, p ∈ family) ∧ ∀ p ∈ second, p ∈ family :=
    ⟨fun p => (hfirst p).1, fun p => (hsecond p).1⟩
  constructor
  · have hdeliver (passes : List Pass) (hp : ∀ p ∈ passes, p ∈ family) :
        k.transactionAfter h passes = passes.foldl (fun doc p => k.deliver h false p doc) none :=
      List.foldl_ext _ _ _ fun doc p hm => Setting.applyAt_transactions hc (hp p hm) doc
    rw [hdeliver first hmem.1, hdeliver second hmem.2]
    exact (stored_deliveries hc hmem.1).ext (stored_deliveries hc hmem.2) hsame
  · intro hresults
    have hdeliver (passes : List Pass) (hp : ∀ p ∈ passes, p ∈ family) :
        k.operationAfter h passes = passes.foldl (fun doc p => k.deliver h true p doc) none :=
      List.foldl_ext _ _ _ fun doc p hm =>
        Setting.applyAt_operations hc (hp p hm) (by simpa [Dict.has] using hresults p (hp p hm)) doc
    rw [hdeliver first hmem.1, hdeliver second hmem.2]
    exact (stored_deliveries hc hmem.1).ext (stored_deliveries hc hmem.2) hsame

/-- A transaction sent on shard 0 and executed on shard 1 with a refund; later a second refund and a log. -/
theorem deliveries_converge_out_of_order :
    let k : Setting := { codec := AddressCodec.format {}, denomination := ⟨18⟩ }
    let info : TxInfo := { feeInfo := { fee := ⟨100, by decide⟩, gasUsed := 50 } }
    let result : ScResultInfo :=
      { result := { originTxHash := [0xaa] }, feeInfo := { fee := ⟨30, by decide⟩, gasRefunded := 10 } }
    let body : Body := ⟨[{ hash := [1], sender := 0, receiver := 1, txHashes := [[0xaa]] }]⟩
    let sender : Pass := ⟨0, { round := 7 }, body, { transactions := [("aa", info)] }⟩
    let executor : Pass :=
      ⟨1, { round := 9 }, body, { transactions := [("aa", info)], scResults := [("b1", result)] }⟩
    let refunder : Pass := ⟨0, { round := 11 }, {}, { scResults := [("b2", result)] }⟩
    let logger : Pass :=
      ⟨1, { round := 12 }, {}, { logs := [{ txHash := "aa", events := [{ identifier := "signalError" }] }] }⟩
    let family := [sender, executor, refunder, logger]
    let late := [logger, refunder, executor, refunder, sender, executor]
    Coherent "aa" family ∧ k.transactionAfter "aa" family = k.transactionAfter "aa" late ∧
      k.operationAfter "aa" family = k.operationAfter "aa" late := by
  intro k info result body sender executor refunder logger family late
  have hsender : sender.info? "aa" = some info ∧ sender.status "aa" = .pending := by decide
  have hexecutor : executor.info? "aa" = some info ∧ executor.status "aa" = .executed := by decide
  have hrefunder : refunder.info? "aa" = none := rfl
  have hlogger : logger.info? "aa" = none := rfl
  have hcoherent : Coherent "aa" family := by
    have hcases {P : Pass → Prop} (hs : P sender) (he : P executor) (hr : P refunder) (hl : P logger) :
        ∀ p ∈ family, P p := by simp [family, hs, he, hr, hl]
    have hinfo : ∀ p ∈ family, ∀ i, p.info? "aa" = some i → i = info :=
      hcases (by simp [hsender]) (by simp [hexecutor]) (by simp [hrefunder]) (by simp [hlogger])
    have hresult : ∀ p ∈ family, ∀ id i, p.pool.scResults.find? id = some i → i = result :=
      hcases (by simp [sender]) (by simp [executor, Dict.find?]) (by simp [refunder, Dict.find?])
        (by simp [logger])
    have hheld : ∀ p ∈ family, (p.info? "aa").isSome → p = sender ∨ p = executor :=
      hcases (by simp) (by simp) (by simp [hrefunder]) (by simp [hlogger])
    constructor
    · exact hcases (by simp [Dict.Sorted, sender]) (by simp [Dict.Sorted, executor])
        (by simp [Dict.Sorted, refunder]) (by simp [Dict.Sorted, logger])
    · exact fun p hp q hq i j hi hj => (hinfo p hp i hi).trans (hinfo q hq j hj).symm
    · intro p hp hi
      rcases hheld p hp hi with rfl | rfl
      · simp [hsender]
      · simp [hexecutor]
    · intro p hp q hq hi hj hs
      rcases hheld p hp hi with rfl | rfl <;> rcases hheld q hq hj with rfl | rfl <;>
        simp_all
    · exact fun p hp q hq id i j hi hj => (hresult p hp id i hi).trans (hresult q hq id j hj).symm
  have hlate : ∀ p, p ∈ late ↔ p ∈ family := by
    intro p
    simp only [late, family, List.mem_cons, List.not_mem_nil, or_false]
    tauto
  obtain ⟨htransaction, hoperation⟩ := deliveries_converge (k := k) hcoherent (fun _ => Iff.rfl) hlate
  exact ⟨hcoherent, htransaction, hoperation (by simp only [family, List.forall_mem_cons]; decide)⟩

end ChainIndex
