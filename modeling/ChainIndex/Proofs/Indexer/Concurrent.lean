import ChainIndex.Proofs.Indexer.Retry
import ChainIndex.Proofs.Store.Interleaving

/-!
A revert while another procedure is under way that has at most one write to a document. The revert
leaves the document as if that write had come before it or after it, unless it replaces a document
that it has read before.
-/
namespace ChainIndex

variable {s : Store} {name id : String}

namespace Rollback

variable {β : Type} {post : β → Prop} {actions : List WriteAction} {changes : Dict (List Mutation)}

theorem meets_writeItems (h : actions.length ≤ 1) {first last : Option Value} (items : List WriteItem)
    (hlast : WriteItem.applyAt id items (WriteAction.applyAll actions first) =
        WriteAction.applyAll actions (WriteItem.applyAt id items first) ∨
      WriteItem.applyAt id items (WriteAction.applyAll actions first) = last) :
    Session.Meets (Session.Underway name id post actions first)
      (writeItems name items).run fun _ => Session.Either name id post actions (WriteItem.applyAt id items first) last := by
  cases items with
  | nil =>
    exact ((Session.stable_either h first last).meets_done (Except.ok () : Except StoreError Unit)).weaken (fun q s hq => .inl hq)
      fun _ _ _ hq => hq
  | cons item rest => exact StoreM.meets_bulkUpsert h last _ hlast

/-- A change that was decided on the document as read before the writes leaves it as if it had come before
them, or after them. -/
def Tolerates (id : String) (actions : List WriteAction) (stored : Option Value) (ms : List Mutation) : Prop :=
  let after := WriteAction.applyAll actions stored
  unwoundLate id ms stored after = WriteAction.applyAll actions (unwound ms stored) ∨
    unwoundLate id ms stored after = unwound ms after

section Tolerates

variable {stored : Option Value}

theorem tolerates_nil (stored : Option Value) (ms : List Mutation) : Tolerates id [] stored ms :=
  .inr (unwindItem?_apply id ms stored)

theorem tolerates_none (actions : List WriteAction) (ms : List Mutation) : Tolerates id actions none ms := .inl rfl

/-- A document with a fee is not removed, so the change is made whatever was written since. -/
theorem tolerates_of_fee {doc : Value} {ms : List Mutation} (hf : (doc.get? Fee.feeField).isSome)
    (h : unwound ms (WriteAction.applyAll actions (some doc)) =
      (WriteAction.applyAll actions (some doc)).map (Mutation.applyAll ms)) :
    Tolerates id actions (some doc) ms := by
  have hread : unwindItem? id ms (some doc) = some ⟨id, .update ms⟩ := by
    rw [unwindItem?, if_pos hf]
  refine .inr (Eq.trans ?_ h.symm)
  rw [unwoundLate, hread]
  rfl

end Tolerates

/-- The document was read before the writes of the other procedure, which may have come since, or after them. -/
def Seen (index id : String) (post : β → Prop) (actions : List WriteAction) (stored : Option Value)
    (read : String → Option Value) (q : Session β) (s : Store) : Prop :=
  read id = stored ∧ Session.Underway index id post actions stored q s ∨
    read id = WriteAction.applyAll actions stored ∧
      Session.Underway index id post [] (WriteAction.applyAll actions stored) q s

section Seen

variable {index : String} {stored : Option Value}

theorem stable_seen (h : actions.length ≤ 1) (stored : Option Value) (read : String → Option Value) :
    Session.Stable (Seen index id post actions stored read) := by
  have hnil : ([] : List WriteAction).length ≤ 1 := Nat.zero_le 1
  exact ((Session.stable_underway h stored).and_of _).or ((Session.stable_underway hnil _).and_of _)

theorem seen_of_underway {q : Session β} {s : Store} (h : Session.Underway index id post actions stored q s) :
    Seen index id post actions stored (s.get? index) q s := by
  obtain ⟨hsends, hdoc⟩ | ⟨hsends, hdoc⟩ := h.state
  · exact .inl ⟨hdoc, h⟩
  · exact .inr ⟨hdoc, h.usable, .inl ⟨hsends, hdoc⟩⟩

/-- The write of what was decided comes before or after the write of the other procedure. -/
theorem meets_unwindItems (hn : changes.keys.Nodup) (h : actions.length ≤ 1)
    (hlate : ∀ ms, changes.find? id = some ms → Tolerates id actions stored ms) (read : String → Option Value) :
    Session.Meets (Seen index id post actions stored read)
      (writeItems index (changes.filterMap fun e => unwindItem? e.1 e.2 (read e.1))).run fun _ =>
        Session.Either index id post actions (changed changes id stored)
          (changed changes id (WriteAction.applyAll actions stored)) := by
  have hwrite := applyAt_unwindItems_late hn read id
  generalize changes.filterMap (fun e => unwindItem? e.1 e.2 (read e.1)) = items at hwrite
  have hown : WriteItem.applyAt id items (read id) = changed changes id (read id) := by
    rw [hwrite, changed]
    cases changes.find? id with
    | none => rfl
    | some ms => exact unwindItem?_apply id ms (read id)
  refine Session.Meets.or (Session.meets_of_imp fun hread => ?_) (Session.meets_of_imp fun hread => ?_)
  · rw [hread] at hwrite hown
    rw [← hown]
    refine meets_writeItems h items ?_
    rw [hown, hwrite, changed, changed]
    cases hms : changes.find? id with
    | none => exact .inl rfl
    | some ms => exact hlate ms hms
  · rw [hread] at hown
    have hnil : ([] : List WriteAction).length ≤ 1 := Nat.zero_le 1
    have hdone : Session.Meets (Session.Underway index id post [] (WriteAction.applyAll actions stored)) _ _ :=
      meets_writeItems hnil items (.inr hown)
    rw [hown] at hdone
    exact hdone.weaken (fun _ _ hq => hq) fun _ _ _ hq => .inr (hq.elim (fun hd => hd) fun hd => hd)

/-- Reading a document and writing it come before or after the write of the other procedure, unless
that falls in between and what was read decides. -/
theorem meets_unwindParents (index : String) (hn : changes.keys.Nodup) (h : actions.length ≤ 1)
    (hlate : ∀ ms, changes.find? id = some ms → Tolerates id actions stored ms) :
    Session.Meets (Session.Underway index id post actions stored) (unwindParents index changes).run
      fun _ => Session.Either index id post actions (changed changes id stored)
        (changed changes id (WriteAction.applyAll actions stored)) := by
  let K (docs : List (Option Value)) (q : Session β) (s : Store) : Prop :=
    ∃ read, docs = changes.keys.map read ∧ Seen index id post actions stored read q s
  have hK (docs : List (Option Value)) : Session.Stable (K docs) := by
    rintro c next s ⟨read, hdocs, hseen⟩
    exact ⟨read, hdocs, stable_seen h stored read c next s hseen⟩
  refine StoreM.meets_bind (StoreM.meets_multiGet K (Session.stable_underway h stored) (fun q s hs => hs.usable)
    index _ (fun q s hs => ⟨s.get? index, rfl, seen_of_underway hs⟩) hK) fun docs => ?_
  intro q s y q' t ⟨read, hdocs, hseen⟩ ha
  subst hdocs
  have hitems : (changes.zip (changes.keys.map read)).filterMap (fun e => unwindItem? e.1.1 e.1.2 e.2) =
      changes.filterMap fun e => unwindItem? e.1 e.2 (read e.1) := filterMap_zip_keys _ _ _
  rw [hitems] at ha
  exact meets_unwindItems hn h hlate read q s y q' t hseen ha

end Seen

section Reads

variable {I : Session β → Store → Prop} {flag : Bool}

/-- Whether other results remain is read the same, as long as no call in between changes it. -/
theorem meets_hasOtherResults (hI : Session.Stable I) (hu : ∀ q s, I q s → s.Usable) (hashes : List String)
    (parent : String) (hflag : parent = id → ∀ q s, I q s → others hashes s id = flag) :
    Session.Meets I (hasOtherResults hashes parent).run fun outcome q s =>
      ∃ found, outcome = .ok found ∧ (parent = id → found = flag) ∧ I q s := by
  let K (docs : List Document) (q : Session β) (s : Store) : Prop :=
    (parent = id → (docs.any fun doc => !hashes.contains doc.id) = flag) ∧ I q s
  have hread (q : Session β) (s : Store) (hq : I q s) :
      K (s.selected Index.scResults (.term originTxHash (.str parent))) q s := by
    refine ⟨fun hp => ?_, hq⟩
    rw [← hflag hp q s hq, ← hp, others]
  exact StoreM.meets_bind (StoreM.meets_scroll K hI hu _ _ hread fun docs => hI.and_of _) fun docs =>
    StoreM.meets_pure (fun found q s => (parent = id → found = flag) ∧ I q s) (hI.and_of _)

/-- The changes to a transaction go by its results, as long as whether others remain does not change. -/
theorem meets_unwinds (hI : Session.Stable I) (hu : ∀ q s, I q s → s.Usable) (d : Denomination)
    (hashes : List String) (groups : Dict (List String))
    (hflag : groups.find? id ≠ none → ∀ q s, I q s → others hashes s id = flag) :
    Session.Meets I (unwinds d hashes groups).run fun outcome q s => ∃ changes, outcome = .ok changes ∧
      (changes.keys = groups.keys ∧
        changes.find? id = (groups.find? id).map fun results => unwindMutations d results flag) ∧ I q s := by
  induction groups with
  | nil =>
    let K (changes : Dict (List Mutation)) (q : Session β) (s : Store) : Prop :=
      (changes.keys = [] ∧ changes.find? id = none) ∧ I q s
    have hpure : Session.Meets (K []) (pure [] : StoreM (Dict (List Mutation))).run fun outcome q s =>
        ∃ changes, outcome = .ok changes ∧ K changes q s := StoreM.meets_pure K (hI.and_of _)
    exact hpure.weaken (fun q s hq => ⟨⟨rfl, rfl⟩, hq⟩) fun _ _ _ h => h
  | cons e rest ih =>
    obtain ⟨parent, results⟩ := e
    have hrest : Dict.find? rest id ≠ none → ∀ q s, I q s → others hashes s id = flag := by
      refine fun hr => hflag ?_
      rw [Dict.find?]
      split
      · simp
      · exact hr
    have hfirst : parent = id → ∀ q s, I q s → others hashes s id = flag := by
      refine fun hp => hflag ?_
      simp [Dict.find?, hp]
    refine StoreM.meets_bind (meets_hasOtherResults hI hu hashes parent hfirst) fun found => ?_
    refine Session.meets_of_imp fun hfound => StoreM.meets_bind (ih hrest) fun more => ?_
    refine Session.meets_of_imp fun hrest => ?_
    obtain ⟨hkeys, hmore⟩ := hrest
    let K (changes : Dict (List Mutation)) (q : Session β) (s : Store) : Prop :=
      (changes.keys = parent :: Dict.keys rest ∧
        changes.find? id = (Dict.find? ((parent, results) :: rest) id).map fun results =>
          unwindMutations d results flag) ∧ I q s
    refine (StoreM.meets_pure K (hI.and_of _)).weaken (fun q s hq => ⟨⟨?_, ?_⟩, hq⟩) fun _ _ _ h => h
    · exact congrArg (parent :: ·) hkeys
    · rw [Dict.find?, Dict.find?]
      by_cases hp : parent = id
      · simp [hp, hfound hp]
      · simp [hp, hmore]

end Reads

def Between (s t u : Store) : Prop :=
  ∀ hash, u.get? Index.scResults hash = s.get? Index.scResults hash ∨
    u.get? Index.scResults hash = t.get? Index.scResults hash

structure FindsAlike (hashes : List String) (id : String) (s u : Store) : Prop where
  results : (parents hashes u).find? id = (parents hashes s).find? id
  others : (parents hashes s).find? id ≠ none → Rollback.others hashes u id = Rollback.others hashes s id

/-- A revert leaves the same of a transaction whose results it finds alike. -/
theorem FindsAlike.unwoundAt_eq {hashes : List String} {u : Store} (h : FindsAlike hashes id s u)
    (d : Denomination) (stored : Option Value) :
    unwoundAt d hashes u id stored = unwoundAt d hashes s id stored := by
  rw [unwoundAt, unwoundAt, h.results]
  cases hf : (parents hashes s).find? id with
  | none => rfl
  | some results => rw [h.others (by simp [hf])]

/-- What happens to the results between the two stores does not concern what a revert takes from the
transaction. -/
structure Apart (hashes : List String) (id : String) (s t : Store) : Prop where
  reverted : ∀ hash ∈ hashes, originOf (t.get? Index.scResults hash) = some id ↔
    originOf (s.get? Index.scResults hash) = some id
  kept : resultsOf hashes s id ≠ [] → ∀ hash, originOf (s.get? Index.scResults hash) = some id →
    originOf (t.get? Index.scResults hash) = some id
  others : resultsOf hashes s id ≠ [] → Rollback.others hashes t id = Rollback.others hashes s id

section Between

variable {t u : Store} {hashes : List String}

/-- A transaction that is reverted itself is not unwound. -/
theorem findsAlike_of_mem (h : id ∈ hashes) (s u : Store) : FindsAlike hashes id s u := by
  have hnone (v : Store) : (parents hashes v).find? id = none := by
    rw [find?_parents, if_pos (.inl h)]
  exact ⟨(hnone u).trans (hnone s).symm, fun hf => absurd (hnone s) hf⟩

/-- Results that are stored as in one of two such stores are found alike. -/
theorem Apart.findsAlike (h : Apart hashes id s t) (hs : s.Usable) (ht : t.Usable) (hu : u.Usable)
    (hb : Between s t u) : FindsAlike hashes id s u := by
  have hresults : resultsOf hashes u id = resultsOf hashes s id := by
    refine List.filter_congr fun hash hm => ?_
    obtain hsame | hsame := hb hash
    · rw [hsame]
    · rw [hsame, decide_eq_decide]
      exact h.reverted hash hm
  refine ⟨by rw [find?_parents, find?_parents, hresults], fun hf => ?_⟩
  have hne : resultsOf hashes s id ≠ [] := by
    intro hnil
    rw [find?_parents, if_pos (.inr hnil)] at hf
    exact hf rfl
  -- Others remain in the middle if they did before, and no more do than afterwards.
  have hfrom : Rollback.others hashes s id = true → Rollback.others hashes u id = true := by
    rw [others_eq_true_iff hs, others_eq_true_iff hu]
    rintro ⟨hash, hout, ho⟩
    refine ⟨hash, hout, ?_⟩
    obtain hsame | hsame := hb hash
    · rwa [hsame]
    · rw [hsame]
      exact h.kept hne hash ho
  have hto : Rollback.others hashes u id = true → Rollback.others hashes t id = true := by
    rw [others_eq_true_iff hu, others_eq_true_iff ht]
    rintro ⟨hash, hout, ho⟩
    refine ⟨hash, hout, ?_⟩
    obtain hsame | hsame := hb hash
    · exact h.kept hne hash (hsame ▸ ho)
    · rwa [← hsame]
  rw [h.others hne] at hto
  exact Bool.eq_iff_iff.2 ⟨hto, hfrom⟩

end Between

def Midway (post : β → Prop) (results : String → List WriteAction) (name id : String)
    (actions : List WriteAction) (s : Store) (q : Session β) (u : Store) : Prop :=
  (∀ hash, Session.Underway Index.scResults hash post (results hash) (s.get? Index.scResults hash) q u) ∧
    Session.Underway name id post actions (s.get? name id) q u

section Midway

variable {t : Store} {results : String → List WriteAction}

theorem stable_midway (hr : ∀ hash, (results hash).length ≤ 1) (ha : actions.length ≤ 1) (s : Store) :
    Session.Stable (Midway post results name id actions s) := by
  intro c next u hmid
  obtain ⟨hresults, hdoc⟩ := hmid
  exact ⟨fun hash => Session.stable_underway (hr hash) _ c next u (hresults hash),
    Session.stable_underway ha _ c next u hdoc⟩

theorem concerns_midway (s : Store) :
    Session.Concerns (Midway post results name id actions s) [Index.scResults, name] := by
  refine ⟨fun q u hmid => hmid.2.usable, fun q u v hv hindex hmid => ?_⟩
  obtain ⟨hresults, hdoc⟩ := hmid
  refine ⟨fun hash => (Session.concerns_underway _).2 q u v hv (fun index hi => ?_) (hresults hash),
    (Session.concerns_underway _).2 q u v hv (fun index hi => ?_) hdoc⟩
  · rw [List.mem_singleton.1 hi]
    exact hindex _ List.mem_cons_self
  · rw [List.mem_singleton.1 hi]
    exact hindex _ (List.mem_cons_of_mem _ (List.mem_singleton_self _))

theorem meets_midway {α : Type} {p : Session α} {others : List String} (hp : p.Within others)
    (hs : Index.scResults ∉ others) (hn : name ∉ others) (hr : ∀ hash, (results hash).length ≤ 1)
    (ha : actions.length ≤ 1) (s : Store) :
    Session.Meets (Midway post results name id actions s) p fun _ => Midway post results name id actions s := by
  refine hp.meets (stable_midway hr ha s) (concerns_midway s) fun index hi => ?_
  simp only [List.mem_cons, List.not_mem_nil, or_false] at hi
  rcases hi with rfl | rfl
  · exact hs
  · exact hn

/-- Each result has all of its writes or none. -/
theorem Midway.between {q : Session β} {u : Store} (h : Midway post results name id actions s q u)
    (ht : ∀ hash, t.get? Index.scResults hash =
      WriteAction.applyAll (results hash) (s.get? Index.scResults hash)) : Between s t u := by
  intro hash
  obtain ⟨-, hdoc⟩ | ⟨-, hdoc⟩ := (h.1 hash).state
  · exact .inl hdoc
  · exact .inr (hdoc.trans (ht hash).symm)

variable {d : Denomination} {hashes : List String}

/-- Changes to both indices, of which one has the document. -/
theorem meets_unwindRecords (hr : ∀ hash, (results hash).length ≤ 1) (ha : actions.length ≤ 1)
    (hn : name ∈ Index.records) (hkeys : changes.keys.Nodup)
    (hlate : ∀ ms, changes.find? id = some ms → Tolerates id actions (s.get? name id) ms) :
    Session.Meets (Midway post results name id actions s)
      (Session.all [(unwindParents Index.transactions changes).run, (unwindParents Index.operations changes).run])
      fun _ => Session.Either name id post actions (changed changes id (s.get? name id))
        (changed changes id (WriteAction.applyAll actions (s.get? name id))) := by
  have hdone : Session.Stable (Session.Either name id post actions (changed changes id (s.get? name id))
      (changed changes id (WriteAction.applyAll actions (s.get? name id)))) := Session.stable_either ha _ _
  have hnil := Session.meets_all_nil (α := Except StoreError Unit) hdone
  have hown : Session.Meets (Midway post results name id actions s) _ _ :=
    (meets_unwindParents name hkeys ha hlate).weaken (fun q u hq => hq.2) fun _ _ _ hq => hq
  simp only [Index.records, List.mem_cons, List.not_mem_nil, or_false] at hn
  rcases hn with rfl | rfl
  · have hframe := (within_unwindParents Index.operations changes).meets hdone
      (Session.concerns_either _ _) (by decide)
    exact hown.all_cons (hframe.all_cons hnil hdone) hdone
  · have hframe : Session.Meets (Midway post results Index.operations id actions s) _ _ :=
      meets_midway (within_unwindParents Index.transactions changes) (by decide) (by decide) hr ha s
    exact hframe.all_cons (hown.all_cons hnil hdone) hdone

/-- A revert writes what it makes of the document before or after the write of the other procedure. -/
theorem meets_unwindResults (hr : ∀ hash, (results hash).length ≤ 1) (ha : actions.length ≤ 1)
    (ht : ∀ hash, t.get? Index.scResults hash =
      WriteAction.applyAll (results hash) (s.get? Index.scResults hash))
    (hn : name ∈ Index.records) (hfinds : ∀ u, u.Usable → Between s t u → FindsAlike hashes id s u)
    (hlate : ∀ found, (parents hashes s).find? id = some found →
      Tolerates id actions (s.get? name id) (unwindMutations d found (others hashes s id))) :
    Session.Meets (Midway post results name id actions s) (unwindResults d hashes).run fun _ =>
      Session.Either name id post actions (unwoundAt d hashes s id (s.get? name id))
        (unwoundAt d hashes s id (WriteAction.applyAll actions (s.get? name id))) := by
  have hmid : Session.Stable (Midway post results name id actions s) := stable_midway hr ha s
  have hdone : Session.Stable (Session.Either name id post actions (unwoundAt d hashes s id (s.get? name id))
      (unwoundAt d hashes s id (WriteAction.applyAll actions (s.get? name id)))) :=
    Session.stable_either ha _ _
  let K (docs : List (Option Value)) (q : Session β) (u : Store) : Prop :=
    (resultsByParent hashes docs).find? id = (parents hashes s).find? id ∧
      Midway post results name id actions s q u
  have hread (q : Session β) (u : Store) (hq : Midway post results name id actions s q u) :
      K (hashes.map (u.get? Index.scResults)) q u :=
    ⟨(hfinds u hq.2.usable (hq.between ht)).results, hq⟩
  refine StoreM.meets_bind (StoreM.meets_multiGet K hmid (fun q u hq => hq.2.usable) _ hashes hread
    fun docs => hmid.and_of _) fun docs => Session.meets_of_imp fun hfind => ?_
  have hsorted := sorted_resultsByParent hashes docs
  generalize resultsByParent hashes docs = groups at hfind hsorted
  cases groups with
  | nil =>
    have hnone (stored : Option Value) : unwoundAt d hashes s id stored = stored := by
      rw [unwoundAt, ← hfind, Dict.find?_nil]
    rw [hnone, hnone] at hdone ⊢
    exact (hdone.meets_done (Except.ok () : Except StoreError Unit)).weaken (fun q u hq => .inl hq.2) fun _ _ _ hq => hq
  | cons e rest =>
    have hflag : Dict.find? (e :: rest) id ≠ none → ∀ q u, Midway post results name id actions s q u →
        others hashes u id = others hashes s id := by
      intro hsome q u hq
      exact (hfinds u hq.2.usable (hq.between ht)).others (hfind ▸ hsome)
    refine StoreM.meets_bind (meets_unwinds hmid (fun q u hq => hq.2.usable) d hashes (e :: rest) hflag)
      fun changes => Session.meets_of_imp fun hgroups => ?_
    obtain ⟨hkeys, hchanges⟩ := hgroups
    rw [hfind] at hchanges
    have hwrites : Session.Meets (Midway post results name id actions s) _ _ :=
      meets_unwindRecords hr ha hn (hkeys ▸ hsorted.nodup_keys) fun ms hms => by
        rw [hchanges] at hms
        obtain ⟨found, hfound, rfl⟩ := Option.map_eq_some_iff.1 hms
        exact hlate found hfound
    rw [changed_eq_unwoundAt hchanges, changed_eq_unwoundAt hchanges] at hwrites
    exact Session.meets_bind_done hwrites hdone firstError

def recordLeft (d : Denomination) (hashes : List String) (s : Store) (id : String) (stored : Option Value) :
    Option Value :=
  if id ∈ hashes then none else unwoundAt d hashes s id stored

/-- Deletes by hash remove a document or leave it alone, whenever they come. -/
theorem meets_deletes (ha : actions.length ≤ 1) (hashes : List String) (first last : Option Value) :
    Session.Meets (Session.Either name id post actions first last)
      (StoreM.bulkUpsert name (hashes.map fun hash => ⟨hash, .delete⟩)).run fun _ =>
        Session.Either name id post actions (if id ∈ hashes then none else first)
          (if id ∈ hashes then none else last) := by
  have hdeletes (stored : Option Value) := WriteItem.applyAt_deletes hashes id stored
  generalize hashes.map (fun hash => WriteItem.mk hash .delete) = deletes at hdeletes
  have hnil : ([] : List WriteAction).length ≤ 1 := Nat.zero_le 1
  refine Session.Meets.or ?_ ?_
  · have hfirst : Session.Meets (Session.Underway name id post actions first) _ _ :=
      StoreM.meets_bulkUpsert ha (if id ∈ hashes then none else last) deletes ?_
    · rwa [hdeletes] at hfirst
    · rw [hdeletes, hdeletes]
      by_cases hid : id ∈ hashes
      · simp only [if_pos hid, or_true]
      · simp only [if_neg hid, true_or]
  · have hlast : Session.Meets (Session.Underway name id post [] last) _ _ :=
      StoreM.meets_bulkUpsert hnil (if id ∈ hashes then none else last) deletes (.inr (hdeletes _))
    rw [hdeletes] at hlast
    exact hlast.weaken (fun _ _ hq => hq) fun _ _ _ hq => .inr (hq.elim (fun h => h) fun h => h)

section Revert

variable (hr : ∀ hash, (results hash).length ≤ 1) (ha : actions.length ≤ 1)
  (ht : ∀ hash, t.get? Index.scResults hash =
    WriteAction.applyAll (results hash) (s.get? Index.scResults hash))
  (hn : name ∈ Index.records) {body : Body}
  (hfinds : ∀ u, u.Usable → Between s t u → FindsAlike body.txHashes id s u)
  (hlate : ∀ found, (parents body.txHashes s).find? id = some found →
    Tolerates id actions (s.get? name id) (unwindMutations d found (others body.txHashes s id)))
include hr ha ht hn hfinds hlate

theorem meets_removeTransactions :
    Session.Meets (Midway post results name id actions s) (removeTransactions d body).run fun _ =>
      Session.Either name id post actions (recordLeft d body.txHashes s id (s.get? name id))
        (recordLeft d body.txHashes s id (WriteAction.applyAll actions (s.get? name id))) := by
  have hresults : Session.Meets (Midway post results name id actions s) (unwindResults d body.txHashes).run
      _ := meets_unwindResults hr ha ht hn hfinds hlate
  unfold removeTransactions recordLeft
  generalize body.txHashes = hashes at *
  cases hashes with
  | nil =>
    have hnone (stored : Option Value) : unwoundAt d [] s id stored = stored := rfl
    have hdone : Session.Stable (Session.Either name id post actions (s.get? name id)
        (WriteAction.applyAll actions (s.get? name id))) := Session.stable_either ha _ _
    simp only [List.not_mem_nil, ↓reduceIte, hnone]
    exact (hdone.meets_done (Except.ok () : Except StoreError Unit)).weaken (fun q u hq => .inl hq.2)
      fun _ _ _ hq => hq
  | cons hash rest =>
    generalize unwoundAt d (hash :: rest) s id (s.get? name id) = first at *
    generalize unwoundAt d (hash :: rest) s id (WriteAction.applyAll actions (s.get? name id)) = last at *
    have hdone : Session.Stable (Session.Either name id post actions
        (if id ∈ hash :: rest then none else first) (if id ∈ hash :: rest then none else last)) :=
      Session.stable_either ha _ _
    have hother (index : String) (hi : name ∉ [index]) (items : List WriteItem) (first last : Option Value) :
        Session.Meets (Session.Either name id post actions first last) (StoreM.bulkUpsert index items).run
          fun _ => Session.Either name id post actions first last :=
      (StoreM.within_bulkUpsert index items).meets_either hi ha first last
    have hdelete : Session.Meets (Session.Either name id post actions first last) _ _ :=
      meets_deletes ha (hash :: rest) first last
    have hnil := Session.meets_all_nil (α := Except StoreError Unit) hdone
    refine Session.meets_bind_done ?_ hdone firstError
    simp only [Index.records, List.mem_cons, List.not_mem_nil, or_false] at hn
    rcases hn with rfl | rfl
    · have hscr := hother Index.scResults (by decide)
      have hops := hother Index.operations (by decide)
      exact hresults.all_cons (hdelete.all_cons ((hscr _ _ _).all_cons ((hops _ _ _).all_cons hnil hdone)
        hdone) hdone) hdone
    · have htx := hother Index.transactions (by decide)
      have hscr := hother Index.scResults (by decide)
      exact hresults.all_cons ((htx _ _ _).all_cons ((hscr _ _ _).all_cons (hdelete.all_cons hnil hdone)
        hdone) hdone) hdone

/-- A revert while another procedure with at most one write to the document is under way. The document
is left as if that write had come after the revert, or before it. -/
theorem meets_revertBlock (header : Header) :
    Session.Meets (Midway post results name id actions s) (revertBlock d header body) fun _ =>
      Session.Either name id post actions (recordLeft d body.txHashes s id (s.get? name id))
        (recordLeft d body.txHashes s id (WriteAction.applyAll actions (s.get? name id))) := by
  have hrecords : Session.Meets (Midway post results name id actions s) (removeTransactions d body).run _ :=
    meets_removeTransactions hr ha ht hn hfinds hlate
  have hmid : Session.Stable (Midway post results name id actions s) := stable_midway hr ha s
  generalize recordLeft d body.txHashes s id (s.get? name id) = first at *
  generalize recordLeft d body.txHashes s id (WriteAction.applyAll actions (s.get? name id)) = last at *
  have hdone : Session.Stable (Session.Either name id post actions first last) :=
    Session.stable_either ha first last
  -- No other step calls the index of results or that of the document.
  have hne : name ∉ [Index.blocks] ∧ name ∉ [Index.miniBlocks] ∧ name ∉ [Index.balances] := by
    simp only [Index.records, List.mem_cons, List.not_mem_nil, or_false] at hn
    rcases hn with rfl | rfl <;> decide
  have hblock : Session.Meets (Midway post results name id actions s) _ _ :=
    meets_midway (within_removeBlock header) (by decide) hne.1 hr ha s
  have hminis : Session.Meets (Midway post results name id actions s) _ _ :=
    meets_midway (within_revertMiniBlocks header body) (by decide) hne.2.1 hr ha s
  have hbalances : Session.Meets (Session.Either name id post actions first last) _ _ :=
    (within_removeBalances header.timestamp header.shard).meets_either hne.2.2 ha first last
  refine Session.Meets.bind (J := fun _ => Session.Either name id post actions first last) ?_
    fun outcomes => ?_
  · refine (Session.meets_bind_done hblock hmid _).all_cons ?_ hdone
    refine (Session.meets_bind_done hminis hmid _).all_cons ?_ hdone
    refine (Session.meets_bind_done hrecords hdone _).all_cons ?_ hdone
    exact (Session.meets_bind_done hbalances hdone _).all_cons (Session.meets_all_nil hdone) hdone
  · split
    · exact hdone.meets_done _
    · exact hdone.meets_done _

end Revert

end Midway

end Rollback
end ChainIndex
