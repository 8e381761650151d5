import ChainIndex.Proofs.Fields
import ChainIndex.Write.Mutation
import Mathlib.Data.List.Induction

/-!
The status latch. Statuses that events alone decide are joined flag by flag, so no order of signals
shows in them, and a signal latched again changes nothing.
-/
namespace ChainIndex
namespace StatusInfo

def ofFlags (completed failed : Bool) : StatusInfo :=
  ⟨completed, failed, if failed then TxStatus.fail.label else TxStatus.success.label⟩

@[simp] theorem ofFlags_completed (c f : Bool) : (ofFlags c f).completed = c := rfl

@[simp] theorem ofFlags_failed (c f : Bool) : (ofFlags c f).failed = f := rfl

theorem latch_ofFlags (c f c' f' : Bool) :
    (ofFlags c f).latch (ofFlags c' f') = ofFlags (c || c') (f || f') := by
  cases f <;> cases f' <;> simp [latch, ofFlags]

/-- Where nothing completed or failed yet, any label gives way. -/
theorem latch_of_unset (label : String) (c f : Bool) :
    latch ⟨false, false, label⟩ (ofFlags c f) = ofFlags c f := by
  simp [latch, ofFlags]

theorem latch_idem (known signal : StatusInfo) : (known.latch signal).latch signal = known.latch signal := by
  cases hk : known.failed <;> cases hs : signal.failed <;> simp [latch, hk, hs]

/-- A failure decides wherever it stands, and without one the last signal. -/
theorem latch_assoc (a b c : StatusInfo) : (a.latch b).latch c = a.latch (b.latch c) := by
  cases ha : a.failed <;> cases hb : b.failed <;> cases hc : c.failed <;> simp [latch, ha, hb, hc, Bool.or_assoc]

/-- The fresh record counts for nothing before a signal; after one it would take the label away. -/
theorem default_latch (s : StatusInfo) : ({} : StatusInfo).latch s = s := by
  simp [latch]

def latchAll (signals : List StatusInfo) : StatusInfo := signals.foldl latch {}

theorem foldl_latch_latch (known s : StatusInfo) (rest : List StatusInfo) :
    rest.foldl latch (known.latch s) = known.latch (rest.foldl latch s) := by
  induction rest generalizing s with
  | nil => rfl
  | cons r rest ih => rw [List.foldl_cons, List.foldl_cons, latch_assoc, ih]

/-- A group of signals counts as the one record of it. -/
theorem foldl_latch_eq {signals : List StatusInfo} (h : signals ≠ []) (known : StatusInfo) :
    signals.foldl latch known = known.latch (latchAll signals) := by
  cases signals with
  | nil => exact absurd rfl h
  | cons s rest => rw [latchAll, List.foldl_cons, List.foldl_cons, default_latch, foldl_latch_latch]

/-- What is known after signals: the flags of all, and the label of the last failure or else, where no failure was
known before, of the last signal. -/
def afterAll (known : StatusInfo) (signals : List StatusInfo) : StatusInfo where
  completed := known.completed || signals.any (·.completed)
  failed := known.failed || signals.any (·.failed)
  status :=
    match (signals.filter (·.failed)).getLast? with
    | some failure => failure.status
    | none => if known.failed then known.status else (signals.getLast?.getD known).status

/-- Signals latched one after the other, in closed form. -/
theorem foldl_latch_eq_afterAll (known : StatusInfo) (signals : List StatusInfo) :
    signals.foldl latch known = known.afterAll signals := by
  induction signals using List.reverseRecOn with
  | nil => simp [afterAll]
  | append_singleton signals s ih =>
    rw [List.foldl_append, List.foldl_cons, List.foldl_nil, ih]
    cases hs : s.failed with
    | true => simp [latch, afterAll, hs, Bool.or_assoc]
    | false =>
      cases hk : known.failed with
      | true => simp [latch, afterAll, hs, hk, Bool.or_assoc]
      | false =>
        -- the label of a failure among the earlier signals stays
        cases hf : (signals.filter (·.failed)).getLast? with
        | none =>
          have hnone : signals.any (·.failed) = false := by
            rw [List.getLast?_eq_none_iff, List.filter_eq_nil_iff] at hf
            exact List.any_eq_false.2 hf
          simp [latch, afterAll, hs, hk, hf, hnone, Bool.or_assoc]
        | some failure =>
          have hany : signals.any (·.failed) = true := by
            have hm := List.mem_filter.1 (List.mem_of_getLast? hf)
            exact List.any_eq_true.2 ⟨failure, hm⟩
          simp [latch, afterAll, hs, hk, hf, hany, Bool.or_assoc]

/-- Of flags alone a group is the disjunction, in whatever order they come. -/
theorem latchAll_ofFlags {signals : List StatusInfo} (h : signals ≠ [])
    (plain : ∀ s ∈ signals, ∃ c f, s = ofFlags c f) :
    latchAll signals = ofFlags (signals.any (·.completed)) (signals.any (·.failed)) := by
  cases signals with
  | nil => exact absurd rfl h
  | cons s rest =>
    obtain ⟨⟨c, f, rfl⟩, hrest⟩ := List.forall_mem_cons.1 plain
    rw [latchAll, List.foldl_cons, default_latch]
    clear plain h
    induction rest generalizing c f with
    | nil => simp
    | cons r rest ih =>
      obtain ⟨⟨c', f', rfl⟩, hmore⟩ := List.forall_mem_cons.1 hrest
      rw [List.foldl_cons, latch_ofFlags, ih hmore]
      simp [Bool.or_assoc]

/-- The document shows what was latched, or at most a label where nothing was. -/
structure Shows (known : Option StatusInfo) (label : Option String) (doc : Value) : Prop where
  completed : doc.get? "completedEvent" = known.map fun s => .bool s.completed
  failed : doc.get? "errorEvent" = known.map fun s => .bool s.failed
  status : doc.get? "status" = ((known.map StatusInfo.status).or label).map .str

variable {known : Option StatusInfo} {label : Option String} {doc other : Value}

theorem shows_empty : Shows none none .empty := ⟨rfl, rfl, rfl⟩

theorem Shows.statusOf (h : Shows known label doc) :
    Mutation.statusOf doc = known.getD ⟨false, false, label.getD ""⟩ := by
  unfold Mutation.statusOf Mutation.flag
  rw [h.completed, h.failed, h.status]
  cases known with
  | none => cases label <;> rfl
  | some s => rfl

def latchOn (label : Option String) (known : Option StatusInfo) (signal : StatusInfo) : Option StatusInfo :=
  some ((known.getD ⟨false, false, label.getD ""⟩).latch signal)

def ofEvents (latched completed failed : Bool) : Option StatusInfo :=
  if latched then some (ofFlags completed failed) else none

theorem latchOn_ofEvents {latched completed failed : Bool}
    (h : latched = false → completed = false ∧ failed = false) (label : Option String) (c f : Bool) :
    latchOn label (ofEvents latched completed failed) (ofFlags c f) =
      ofEvents true (completed || c) (failed || f) := by
  cases latched with
  | true => exact congrArg some (latch_ofFlags completed failed c f)
  | false =>
    obtain ⟨rfl, rfl⟩ := h rfl
    exact congrArg some (latch_of_unset (label.getD "") c f)

/-- A signal of events, or none. -/
theorem foldl_latchOn_toList {latched completed failed : Bool}
    (h : latched = false → completed = false ∧ failed = false) (label : Option String)
    {signal : Option StatusInfo} (plain : ∀ s, signal = some s → ∃ c f, s = ofFlags c f) :
    signal.toList.foldl (latchOn label) (ofEvents latched completed failed) =
      ofEvents (signal.isSome || latched) (signal.any (·.completed) || completed)
        (signal.any (·.failed) || failed) := by
  cases signal with
  | none => rfl
  | some s =>
    obtain ⟨c, f, rfl⟩ := plain s rfl
    rw [Option.isSome_some, Bool.true_or, Bool.or_comm _ completed, Bool.or_comm _ failed]
    exact latchOn_ofEvents h label c f

/-- Only the status fields count. -/
theorem Shows.of_get? (h : Shows known label doc)
    (same : ∀ key ∈ StatusInfo.fieldNames, other.get? key = doc.get? key) : Shows known label other where
  completed := (same _ (by simp [fieldNames])).trans h.completed
  failed := (same _ (by simp [fieldNames])).trans h.failed
  status := (same _ (by simp [fieldNames])).trans h.status

end StatusInfo

namespace Mutation

open StatusInfo

/-- A status is three fields, and no other field changes with it. -/
theorem get?_setStatus (s : StatusInfo) (doc : Value) (key : String) :
    (setStatus s doc).get? key =
      if key = "status" then some (.str s.status)
      else if key = "errorEvent" then some (.bool s.failed)
      else if key = "completedEvent" then some (.bool s.completed)
      else doc.get? key := by
  simp only [setStatus, Value.get?_set, eq_comm]

theorem get?_setStatus_of_not_mem (s : StatusInfo) (doc : Value) {key : String}
    (hk : key ∉ StatusInfo.fieldNames) : (setStatus s doc).get? key = doc.get? key := by
  simp only [fieldNames, List.mem_cons, List.not_mem_nil, or_false, not_or] at hk
  simp [get?_setStatus, hk]

theorem statusOf_congr {doc other : Value} (h : ∀ key ∈ fieldNames, other.get? key = doc.get? key) :
    statusOf other = statusOf doc := by
  unfold statusOf flag
  rw [h "completedEvent" (by decide), h "errorEvent" (by decide), h "status" (by decide)]

theorem get?_setStatus_of_mem (s : StatusInfo) (doc other : Value) {key : String}
    (hk : key ∈ fieldNames) : (setStatus s other).get? key = (setStatus s doc).get? key := by
  simp only [fieldNames, List.mem_cons, List.not_mem_nil, or_false] at hk
  rcases hk with rfl | rfl | rfl <;> simp [get?_setStatus]

theorem isRecord_setStatus {doc : Value} (h : doc.IsRecord) (s : StatusInfo) : (setStatus s doc).IsRecord :=
  ((h.set _ _).set _ _).set _ _

theorem shows_setStatus (s : StatusInfo) (label : Option String) (doc : Value) :
    Shows (some s) label (setStatus s doc) := by
  refine ⟨?_, ?_, ?_⟩ <;> simp [get?_setStatus]

@[simp] theorem statusOf_setStatus (s : StatusInfo) (doc : Value) : statusOf (setStatus s doc) = s :=
  (shows_setStatus s none doc).statusOf

/-- The last status that is set counts, whatever the document is. -/
theorem setStatus_setStatus (s t : StatusInfo) (doc : Value) : setStatus t (setStatus s doc) = setStatus t doc := by
  have hcompleted (v : Value) (a b c d : Value) :
      (((v.set "completedEvent" a).set "errorEvent" b).set "status" c).set "completedEvent" d =
        ((v.set "completedEvent" d).set "errorEvent" b).set "status" c := by
    have hne : "errorEvent" ≠ "completedEvent" := by decide
    rw [Value.set_comm (by decide), Value.set_comm hne, Value.set_set]
  have hfailed (v : Value) (b c d : Value) :
      ((v.set "errorEvent" b).set "status" c).set "errorEvent" d = (v.set "errorEvent" d).set "status" c := by
    rw [Value.set_comm (by decide), Value.set_set]
  simp only [setStatus, hcompleted, hfailed, Value.set_set]

/-- Signals latched one after the other set the status that they come to. -/
theorem applyAll_latchStatus {signals : List StatusInfo} (h : signals ≠ []) (doc : Value) :
    applyAll (signals.map .latchStatus) doc = setStatus (signals.foldl StatusInfo.latch (statusOf doc)) doc := by
  induction signals generalizing doc with
  | nil => exact absurd rfl h
  | cons s rest ih =>
    cases rest with
    | nil => rfl
    | cons r rest =>
      change applyAll ((r :: rest).map .latchStatus) (setStatus ((statusOf doc).latch s) doc) = _
      rw [ih (List.cons_ne_nil r rest), statusOf_setStatus, setStatus_setStatus]
      rfl

/-- A group of signals is latched as one. -/
theorem apply_latchAll {signals : List StatusInfo} (h : signals ≠ []) (doc : Value) :
    (Mutation.latchStatus (latchAll signals)).apply doc = applyAll (signals.map .latchStatus) doc := by
  rw [applyAll_latchStatus h, foldl_latch_eq h]
  rfl

/-- Groups of signals are latched as what is in them. -/
theorem applyAll_latchAll {groups : List (List StatusInfo)} (h : ∀ g ∈ groups, g ≠ []) (doc : Value) :
    applyAll (groups.map fun g => .latchStatus (latchAll g)) doc = applyAll (groups.flatten.map .latchStatus) doc := by
  induction groups generalizing doc with
  | nil => rfl
  | cons g rest ih =>
    obtain ⟨hg, hrest⟩ := List.forall_mem_cons.1 h
    have hsplit : applyAll ((g ++ rest.flatten).map .latchStatus) doc =
        applyAll (rest.flatten.map .latchStatus) (applyAll (g.map .latchStatus) doc) := by
      rw [List.map_append]
      exact List.foldl_append
    rw [List.flatten_cons, hsplit, ← apply_latchAll hg, ← ih hrest]
    rfl

theorem Shows.latchStatus {known : Option StatusInfo} {label : Option String} {doc : Value}
    (h : Shows known label doc) (signal : StatusInfo) :
    Shows (latchOn label known signal) label ((latchStatus signal).apply doc) := by
  rw [latchOn, ← h.statusOf]
  exact shows_setStatus _ label doc

/-- A document goes on showing what was latched, signal after signal. -/
theorem Shows.latchAll {known : Option StatusInfo} {label : Option String} {doc : Value}
    (h : Shows known label doc) (signals : List StatusInfo) :
    Shows (signals.foldl (latchOn label) known) label (applyAll (signals.map .latchStatus) doc) := by
  induction signals generalizing known doc with
  | nil => exact h
  | cons s rest ih => exact ih (Shows.latchStatus h s)

end Mutation
end ChainIndex
