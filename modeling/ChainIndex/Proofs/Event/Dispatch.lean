import ChainIndex.Proofs.Counters
import ChainIndex.Proofs.Event.Sources

/-!
The order of the classifiers. Their vocabularies have no identifier in common, so no event is taken by two of them, and
the answers to the events of a block are the same whichever is asked first. Every event is counted as seen, and once more
by its answer.
-/
namespace ChainIndex

variable {event : Event} {ctx : EventContext} {deltas : List Delta}

namespace EventName

theorem mem_all (name : EventName) : name ∈ all := by
  cases name <;> decide

/-- Every name is read back from its text. -/
theorem ofText?_text (name : EventName) : ofText? name.text = some name := by
  have hall : ∀ name ∈ all, ofText? name.text = some name := by decide +kernel
  exact hall name name.mem_all

theorem text_injective : Function.Injective text := by
  intro name other h
  have hread := ofText?_text name
  rw [h, ofText?_text] at hread
  exact (Option.some.inj hread).symm

end EventName

namespace Outcome

theorem deltas?_eq_some_iff {o : Outcome} : o.deltas? = some deltas ↔ o = .processed deltas := by
  cases o <;> simp [deltas?]

end Outcome

namespace Classifier

variable {c d : Classifier}

def vocabulary (c : Classifier) : List String := (EventName.all.filter (·.classifier = c)).map EventName.text

theorem mem_vocabulary {identifier : String} :
    identifier ∈ c.vocabulary ↔ ∃ name : EventName, name.classifier = c ∧ name.text = identifier := by
  simp [vocabulary, EventName.mem_all]

theorem disjoint_vocabulary (h : c ≠ d) : c.vocabulary.Disjoint d.vocabulary := by
  intro identifier hc hd
  obtain ⟨name, rfl, hname⟩ := mem_vocabulary.1 hc
  obtain ⟨other, rfl, hother⟩ := mem_vocabulary.1 hd
  rw [EventName.text_injective (hname.trans hother.symm)] at h
  exact h rfl

/-- Whatever its address, topics and context, an event is taken by its identifier. -/
theorem mem_vocabulary_of_processed (h : c.classify event ctx = .processed deltas) :
    event.identifier ∈ c.vocabulary := by
  unfold classify at h
  split at h
  · next name hname =>
    refine mem_vocabulary.2 ⟨name, ?_, EventName.text_of_ofText? hname⟩
    by_contra hother
    rw [classifyNamed_of_ne (Ne.symm hother)] at h
    cases h
  · cases h

/-- An event that is taken is in no other vocabulary, and no other classifier takes it. -/
theorem alone_of_processed (h : c.classify event ctx = .processed deltas) (hd : d ≠ c) :
    event.identifier ∉ d.vocabulary ∧ d.classify event ctx = .notApplicable :=
  ⟨fun hother => disjoint_vocabulary hd hother (mem_vocabulary_of_processed h),
    notApplicable_of_taken hd (Outcome.deltas?_eq_some_iff.2 h)⟩

end Classifier

namespace Registry

variable {r : Registry} {order other : List Classifier}

/-- The answer to an event is that of the classifier that takes it, wherever that one stands. -/
theorem dispatch_eq_some_iff :
    r.dispatch event ctx = some deltas ↔ ∃ c ∈ r.classifiers, c.classify event ctx = .processed deltas := by
  constructor
  · intro h
    obtain ⟨c, hc, htaken⟩ := List.exists_of_findSome?_eq_some h
    exact ⟨c, hc, Outcome.deltas?_eq_some_iff.1 htaken⟩
  · rintro ⟨c, hc, htaken⟩
    cases hd : r.dispatch event ctx with
    | none =>
      have hnone := List.findSome?_eq_none_iff.1 hd c hc
      rw [htaken] at hnone
      cases hnone
    | some first =>
      obtain ⟨d, -, hfirst⟩ := List.exists_of_findSome?_eq_some hd
      by_cases hdc : d = c
      · rw [hdc, htaken] at hfirst
        exact hfirst.symm
      · rw [(Classifier.alone_of_processed htaken hdc).2] at hfirst
        cases hfirst

theorem dispatch_perm (r : Registry) (h : order.Perm other) :
    Registry.dispatch { r with classifiers := order } = Registry.dispatch { r with classifiers := other } := by
  funext event ctx
  ext deltas
  simp only [dispatch_eq_some_iff, h.mem_iff]

theorem answers_perm (r : Registry) (h : order.Perm other) (pool : Pool) (timestamp : UInt64) :
    Registry.answers { r with classifiers := order } pool timestamp =
      Registry.answers { r with classifiers := other } pool timestamp := by
  rw [answers, dispatch_perm r h]
  rfl

structure Tallied (stats : Counters EventStat) (answers : List (Option (List Delta))) : Prop where
  complete : stats.Complete
  seen : stats.get .seen = UInt64.ofNat answers.length
  each : ∀ stat ≠ EventStat.seen, stats.get stat = UInt64.ofNat (answers.countP (statOf · = stat))

variable {stats : Counters EventStat} {answers : List (Option (List Delta))}

theorem statOf_ne_seen (answer : Option (List Delta)) : statOf answer ≠ .seen := by
  rcases answer with _ | _ | _ <;> exact nofun

theorem tallied_start : Tallied .start [] where
  complete := Counters.complete_start_of_all fun stat => by cases stat <;> decide
  seen := by decide
  each := fun stat _ => by cases stat <;> decide

/-- An event more. -/
theorem Tallied.count (h : Tallied stats answers) (answer : Option (List Delta)) :
    Tallied ((stats.increment .seen).increment (statOf answer)) (answers ++ [answer]) := by
  have hseen : (stats.increment .seen).Complete := h.complete.add _ _
  refine ⟨hseen.add _ _, ?_, fun stat hstat => ?_⟩
  · rw [hseen.get_increment, if_neg (statOf_ne_seen answer), h.complete.get_increment, if_pos rfl, h.seen,
      List.length_append, UInt64.ofNat_add]
    rfl
  · rw [hseen.get_increment, h.complete.get_increment, if_neg hstat.symm, h.each stat hstat, List.countP_append,
      List.countP_singleton]
    by_cases hanswer : statOf answer = stat
    · rw [if_pos hanswer, if_pos (decide_eq_true hanswer), UInt64.ofNat_add]
      rfl
    · rw [if_neg hanswer, if_neg (by simpa using hanswer), Nat.add_zero]

/-- The events of a block more. -/
theorem Tallied.countLogs (h : Tallied stats answers) (r : Registry) (pool : Pool) (timestamp : UInt64) :
    Tallied (r.countLogs pool timestamp stats) (answers ++ r.answers pool timestamp) := by
  unfold Registry.countLogs
  generalize r.answers pool timestamp = more
  induction more generalizing stats answers with
  | nil => rwa [List.append_nil]
  | cons answer rest ih =>
    rw [List.append_cons]
    exact ih (h.count answer)

def countCalls (r : Registry) (calls : List (Pool × UInt64)) : Counters EventStat :=
  calls.foldl (fun stats (pool, timestamp) => r.countLogs pool timestamp stats) .start

def answersTo (r : Registry) (calls : List (Pool × UInt64)) : List (Option (List Delta)) :=
  calls.flatMap fun (pool, timestamp) => r.answers pool timestamp

theorem tallied_countCalls (r : Registry) (calls : List (Pool × UInt64)) :
    Tallied (r.countCalls calls) (r.answersTo calls) := by
  induction calls using List.reverseRecOn with
  | nil => exact tallied_start
  | append_singleton calls call ih =>
    have hcount : r.countCalls (calls ++ [call]) = r.countLogs call.1 call.2 (r.countCalls calls) := List.foldl_append
    have hanswers : r.answersTo (calls ++ [call]) = r.answersTo calls ++ r.answers call.1 call.2 := by
      simp [answersTo]
    rw [hcount, hanswers]
    exact ih.countLogs r call.1 call.2

/-- Every answer is of one of three kinds. -/
theorem length_eq_countP (answers : List (Option (List Delta))) :
    answers.length = answers.countP (statOf · = .processed) + answers.countP (statOf · = .swallowed) +
      answers.countP (statOf · = .unclaimed) := by
  induction answers with
  | nil => rfl
  | cons answer rest ih =>
    rw [List.length_cons, ih, List.countP_cons, List.countP_cons, List.countP_cons]
    rcases answer with _ | _ | _ <;> simp [statOf] <;> omega

end Registry

/-- In whatever order the classifiers are asked, a block says the same and is counted the same: no event is taken by two
of them. And over any calls the events counted are those processed, swallowed and unclaimed. -/
theorem dispatch_in_any_order (order : List Classifier) (h : order.Perm Classifier.standard) :
    (∀ (r : Registry) (pool : Pool) (timestamp : UInt64) (stats : Counters EventStat),
      Registry.processLogs { r with classifiers := order } pool timestamp =
        Registry.processLogs { r with classifiers := Classifier.standard } pool timestamp ∧
      Registry.countLogs { r with classifiers := order } pool timestamp stats =
        Registry.countLogs { r with classifiers := Classifier.standard } pool timestamp stats) ∧
    (∀ (c : Classifier) event ctx deltas, c.classify event ctx = .processed deltas → event.identifier ∈ c.vocabulary ∧
      ∀ d ≠ c, event.identifier ∉ d.vocabulary ∧ d.classify event ctx = .notApplicable) ∧
    ∀ (r : Registry) (calls : List (Pool × UInt64)),
      let stats := r.countCalls calls
      stats.get .seen = stats.get .processed + stats.get .swallowed + stats.get .unclaimed ∧
      (stats.get .seen).toNat = (r.answersTo calls).length % UInt64.size ∧
      ∀ stat ≠ EventStat.seen,
        (stats.get stat).toNat = (r.answersTo calls).countP (Registry.statOf · = stat) % UInt64.size := by
  refine ⟨fun r pool timestamp stats => ⟨?_, ?_⟩, fun c event ctx deltas hc =>
    ⟨Classifier.mem_vocabulary_of_processed hc, fun d hd => Classifier.alone_of_processed hc hd⟩, fun r calls => ?_⟩
  · rw [Registry.processLogs, Registry.processLogs, Registry.answers_perm r h]
  · rw [Registry.countLogs, Registry.countLogs, Registry.answers_perm r h]
  · have htally := Registry.tallied_countCalls r calls
    refine ⟨?_, ?_, fun stat hstat => ?_⟩
    · rw [htally.seen, htally.each .processed nofun, htally.each .swallowed nofun, htally.each .unclaimed nofun,
        ← UInt64.ofNat_add, ← UInt64.ofNat_add, ← Registry.length_eq_countP]
    · rw [htally.seen]
      exact UInt64.toNat_ofNat'
    · rw [htally.each stat hstat]
      exact UInt64.toNat_ofNat'

/-- An event of roles without topics is swallowed, the burn of a fungible token is no classifier's, and a completion is
processed, with the classifiers backwards too. -/
theorem dispatch_in_any_order_backwards :
    let completion : Event := ⟨[1], "completedTxEvent", [], []⟩
    let pool : Pool := { logs := [⟨"aa", [1], [⟨[1], "DCDTSetRole", [], []⟩, ⟨[1], "DCDTNFTBurn", [[84], [], [5]], []⟩,
      completion]⟩] }
    let backwards : Registry := { classifiers := Classifier.standard.reverse }
    backwards.classifiers.Perm Classifier.standard ∧
    backwards.processLogs pool 1 = ({} : Registry).processLogs pool 1 ∧
    backwards.countLogs pool 1 .start = ({} : Registry).countLogs pool 1 .start ∧
    (Classifier.informative.classify completion {} = .processed [.status "" .ofCompletion] ∧
      Classifier.roles ≠ .informative ∧ Classifier.roles.classify completion {} = .notApplicable) ∧
    (EventStat.unclaimed ≠ .seen ∧ ((backwards.countCalls [(pool, 1), (pool, 2)]).get .unclaimed).toNat = 2) := by
  intro completion pool backwards
  have hperm : backwards.classifiers.Perm Classifier.standard := List.reverse_perm _
  obtain ⟨hsame, halone, hcounted⟩ := dispatch_in_any_order backwards.classifiers hperm
  obtain ⟨hprocessed, hcounts⟩ := hsame {} pool 1 .start
  have htaken : Classifier.informative.classify completion {} = .processed [.status "" .ofCompletion] := rfl
  have hroles : Classifier.roles ≠ .informative := nofun
  have hstat : EventStat.unclaimed ≠ .seen := nofun
  refine ⟨hperm, hprocessed, hcounts, ⟨htaken, hroles, ((halone _ _ _ _ htaken).2 _ hroles).2⟩, hstat, ?_⟩
  exact ((hcounted backwards [(pool, 1), (pool, 2)]).2.2 .unclaimed hstat).trans (by decide)

end ChainIndex
