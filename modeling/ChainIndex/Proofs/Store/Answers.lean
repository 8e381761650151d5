import ChainIndex.Proofs.Store.Unavailable

/-!
What procedures answer while indices are unavailable. One that works on a single index ends in the error of that
index without it, and a row of procedures in the first error among theirs.
-/
namespace ChainIndex

variable {s t : Store} {down : List String} {index : String}

namespace Store

def verdict (down names : List String) : Except StoreError Unit :=
  match names.find? (· ∈ down) with
  | some name => .error (unavailableError name)
  | none => .ok ()

theorem verdict_of_available {names : List String} (h : ∀ name ∈ names, name ∉ down) :
    verdict down names = .ok () := by
  have hnone : names.find? (· ∈ down) = none := List.find?_eq_none.2 fun name hn => by simpa using h name hn
  rw [verdict, hnone]

theorem verdict_eq_ok_iff {names : List String} : verdict down names = .ok () ↔ ∀ name ∈ names, name ∉ down := by
  refine ⟨fun h name hn hd => ?_, verdict_of_available⟩
  cases hf : names.find? (· ∈ down) with
  | some found => rw [verdict, hf] at h; cases h
  | none => exact List.find?_eq_none.1 hf name hn (decide_eq_true hd)

theorem verdict_cons_of_available {name : String} (h : name ∉ down) (rest : List String) :
    verdict down (name :: rest) = verdict down rest := by
  rw [verdict, List.find?_cons_of_neg (by simpa using h), ← verdict]

/-- Among names in order it is the error of the least that is unavailable. -/
theorem verdict_of_pairwise {names : List String} (h : names.Pairwise (· < ·))
    (hmissing : ∃ name ∈ names, name ∈ down) :
    ∃ name ∈ names, name ∈ down ∧ (∀ other ∈ names, other ∈ down → name ≤ other) ∧
      verdict down names = .error (unavailableError name) := by
  induction h with
  | nil =>
    obtain ⟨name, hn, -⟩ := hmissing
    cases hn
  | @cons first rest hfirst _ ih =>
    by_cases hd : first ∈ down
    · refine ⟨first, List.mem_cons_self, hd, fun other ho _ => ?_, ?_⟩
      · rcases List.mem_cons.1 ho with rfl | ho
        · exact String.le_refl _
        · exact Std.le_of_lt (hfirst other ho)
      · rw [verdict, List.find?_cons_of_pos (by simpa using hd)]
    · have hrest : ∃ name ∈ rest, name ∈ down := by
        obtain ⟨name, hn, hm⟩ := hmissing
        exact ⟨name, (List.mem_cons.1 hn).resolve_left fun he => hd (he ▸ hm), hm⟩
      obtain ⟨name, hn, hm, hleast, hverdict⟩ := ih hrest
      refine ⟨name, List.mem_cons_of_mem _ hn, hm, fun other ho hother => ?_, ?_⟩
      · exact hleast other ((List.mem_cons.1 ho).resolve_left fun he => hd (he ▸ hother)) hother
      · rw [verdict_cons_of_available hd, hverdict]

/-- The first error of a row is that of all its indices. -/
theorem firstError_verdict (down : List String) (rows : List (List String)) :
    firstError (rows.map (verdict down)) = verdict down rows.flatten := by
  induction rows with
  | nil => rfl
  | cons names rest ih =>
    rw [List.map_cons, List.flatten_cons, verdict, verdict, List.find?_append]
    cases names.find? (· ∈ down) with
    | some name => rfl
    | none => exact ih

def reply {α : Type} (down : List String) (name : String) (x : α) : Except StoreError α :=
  if name ∈ down then .error (unavailableError name) else .ok x

theorem reply_unit (down : List String) (name : String) : reply down name () = verdict down [name] := by
  rw [verdict, List.find?_singleton, reply]
  by_cases h : name ∈ down <;> simp [h]

/-- The first error is that of the first unavailable index. -/
theorem firstError_reply {α ι : Type} (down : List String) (name : ι → String) (x : ι → α) (l : List ι) :
    firstError (l.map fun i => reply down (name i) (x i)) = verdict down (l.map name) := by
  induction l with
  | nil => rfl
  | cons i rest ih =>
    rw [List.map_cons, List.map_cons]
    by_cases h : name i ∈ down
    · rw [reply, if_pos h, verdict, List.find?_cons_of_pos (by simpa using h)]
      rfl
    · rw [reply, if_neg h, verdict_cons_of_available h]
      exact ih

end Store

namespace Session

variable {α β ι : Type}

/-- What the procedure answers while the indices are unavailable, whatever the documents. -/
def Answers (down : List String) (p : Session α) (x : α) : Prop :=
  ∀ s : Store, s.Usable → (p.run (s.withUnavailable down)).1 = x

theorem answers_done (x : α) : (done x).Answers down x := fun _ _ => rfl

theorem Answers.bind {p : Session α} {x : α} (hp : p.Answers down x) {f : α → Session β} {y : β}
    (hf : (f x).Answers down y) : (p >>= f).Answers down y := by
  intro s hs
  rw [run_bind, hp s hs, run_withUnavailable_snd]
  exact hf _ (usable_attempt hs p down)

theorem Answers.map {p : Session α} {x : α} (hp : p.Answers down x) (g : α → β) :
    (p >>= fun y => done (g y)).Answers down (g x) := hp.bind (answers_done (g x))

theorem answers_all {p : ι → Session α} {x : ι → α} (l : List ι) (h : ∀ i ∈ l, (p i).Answers down (x i)) :
    (all (l.map p)).Answers down (l.map x) := by
  induction l with
  | nil => exact answers_done []
  | cons i rest ih =>
    obtain ⟨hi, hrest⟩ := List.forall_mem_cons.1 h
    exact hi.bind ((ih hrest).map _)

end Session

namespace StoreM

variable {α β : Type}

def StopsWithout (p : StoreM α) (index : String) : Prop :=
  ∀ s : Store, index ∈ s.unavailable → (Session.run p.run s).1 = .error (Store.unavailableError index)

/-- A call has no other answer than the error of its index, when that is unavailable. -/
theorem stops_perform (c : StoreCall) : (perform c).StopsWithout c.index := by
  intro s hs
  have hcheck : s.check c.index = .error (Store.unavailableError c.index) := by
    rw [Store.check_eq, if_pos hs]
  change (s.answer c).1 = _
  cases c with
  | multiGet index ids =>
    simp only [StoreCall.index] at hcheck
    simp only [Store.answer, Store.multiGet, hcheck]
    rfl
  | bulkUpsert index items =>
    simp only [StoreCall.index] at hcheck
    simp only [Store.answer, Store.bulkUpsert, hcheck]
    rfl
  | scroll index query =>
    simp only [StoreCall.index] at hcheck
    simp only [Store.answer, Store.scrollPages, hcheck]
    rfl
  | deleteByQuery index query =>
    simp only [StoreCall.index] at hcheck
    simp only [Store.answer, Store.deleteByQuery, hcheck]
    rfl

theorem StopsWithout.bind {p : StoreM α} (hp : p.StopsWithout index) (f : α → StoreM β) :
    (p >>= f).StopsWithout index := by
  intro s hs
  rw [ExceptT.run_bind, Session.run_bind, hp s hs]
  rfl

theorem stops_multiGet (index : String) (ids : List String) : (multiGet index ids).StopsWithout index :=
  stops_perform _

theorem stops_bulkUpsert (index : String) (items : List WriteItem) : (bulkUpsert index items).StopsWithout index :=
  stops_perform _

theorem stops_scroll (index : String) (query : Query) : (scroll index query).StopsWithout index :=
  (stops_perform (.scroll index query)).bind _

theorem stops_deleteByQuery (index : String) (query : Query) : (deleteByQuery index query).StopsWithout index :=
  stops_perform _

/-- A procedure on one index succeeds exactly if that index is available. -/
theorem StopsWithout.answers {p : StoreM α} {x : α} (hstop : p.StopsWithout index) (hwithin : p.Within [index])
    (hgives : ∀ s : Store, s.Usable → ∃ t, p.Gives s x t) (down : List String) :
    Session.Answers down p.run (Store.reply down index x) := by
  intro s hs
  rw [Store.reply]
  by_cases hd : index ∈ down
  · rw [if_pos hd]
    exact hstop _ hd
  · obtain ⟨t, ht⟩ := hgives s hs
    have hrun := ht.withUnavailable hwithin hs (List.forall_mem_singleton.2 hd)
    rw [if_neg hd, hrun]

theorem StopsWithout.answers_unit {p : StoreM Unit} (hstop : p.StopsWithout index) (hwithin : p.Within [index])
    (hsucceeds : p.Succeeds) (down : List String) : Session.Answers down p.run (Store.verdict down [index]) := by
  rw [← Store.reply_unit]
  refine hstop.answers hwithin (fun s hs => ?_) down
  obtain ⟨_, t, ht⟩ := hsucceeds.gives hs
  exact ⟨t, ht⟩

/-- A row of procedures, one for each index and all attempted, answers for all the indices. -/
theorem answers_row (names : List String) {p : String → StoreM Unit}
    (h : ∀ name ∈ names, Session.Answers down (p name).run (Store.verdict down [name])) :
    Session.Answers down
      (Session.all (names.map fun name => (p name).run) >>= fun outcomes => pure (firstError outcomes))
      (Store.verdict down names) := by
  have hnames : firstError (names.map fun name => Store.verdict down [name]) = Store.verdict down names := by
    have hrow := Store.firstError_verdict down (names.map ([·]))
    rw [List.map_map, ← List.flatMap_def, List.flatMap_singleton'] at hrow
    exact hrow
  exact hnames ▸ (Session.answers_all names h).map firstError

theorem answers_bulkUpsert (index : String) (items : List WriteItem) (down : List String) :
    Session.Answers down (bulkUpsert index items).run (Store.verdict down [index]) :=
  (stops_bulkUpsert index items).answers_unit (within_bulkUpsert index items) (succeeds_bulkUpsert index items) down

end StoreM
end ChainIndex
