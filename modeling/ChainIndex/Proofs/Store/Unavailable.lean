import ChainIndex.Proofs.Store.Effect

/-!
Procedures by the indices that they call. A procedure leaves every other index alone. On a store with
some indices unavailable it runs as on an available one if it calls none of those, and it changes
nothing if it calls only those.
-/
namespace ChainIndex

variable {s t : Store} {down names : List String} {name : String}

def StoreCall.index : StoreCall → String
  | multiGet index _ => index
  | bulkUpsert index _ => index
  | scroll index _ => index
  | deleteByQuery index _ => index

namespace Store

/-- The same documents, with exactly the given indices unavailable. -/
def withUnavailable (s : Store) (down : List String) : Store := { s with unavailable := down }

@[simp] theorem get?_withUnavailable (s : Store) (down : List String) (name id : String) :
    (s.withUnavailable down).get? name id = s.get? name id := rfl

@[simp] theorem withUnavailable_withUnavailable (s : Store) (down other : List String) :
    (s.withUnavailable down).withUnavailable other = s.withUnavailable other := rfl

theorem withUnavailable_nil (h : s.unavailable = []) : s.withUnavailable [] = s := by
  cases s
  cases h
  rfl

theorem Usable.withUnavailable_nil (h : s.Usable) : s.withUnavailable [] = s :=
  Store.withUnavailable_nil h.available

theorem check_eq (s : Store) (name : String) :
    s.check name = if name ∈ s.unavailable then .error (unavailableError name) else .ok () := by
  simp [check]

theorem answer_of_unavailable {c : StoreCall} (h : c.index ∈ s.unavailable) : (s.answer c).2 = s := by
  have hcheck : s.check c.index = .error (unavailableError c.index) := by
    rw [check_eq, if_pos h]
  cases c with
  | multiGet index ids => rfl
  | scroll index query => rfl
  | bulkUpsert index items =>
    have hcheck : s.check index = .error (unavailableError index) := hcheck
    simp only [answer, Store.bulkUpsert, hcheck]
    rfl
  | deleteByQuery index query =>
    have hcheck : s.check index = .error (unavailableError index) := hcheck
    simp only [answer, Store.deleteByQuery, hcheck]
    rfl

/-- Calls to available indices do not see which others are not. -/
theorem answer_withUnavailable {c : StoreCall} (hs : s.unavailable = []) (h : c.index ∉ down) :
    (s.withUnavailable down).answer c = ((s.answer c).1, (s.answer c).2.withUnavailable down) := by
  have hdown : (s.withUnavailable down).check c.index = .ok () := by
    rw [check_eq]
    exact if_neg h
  have hcheck : s.check c.index = .ok () := by simp [check_eq, hs]
  cases c with
  | multiGet index ids =>
    simp only [StoreCall.index] at hdown hcheck
    simp only [answer, Store.multiGet, hdown, hcheck]
    rfl
  | scroll index query =>
    simp only [StoreCall.index] at hdown hcheck
    simp only [answer, Store.scrollPages, hdown, hcheck]
    rfl
  | bulkUpsert index items =>
    simp only [StoreCall.index] at hdown hcheck
    simp only [answer, Store.bulkUpsert, hdown, hcheck]
    rfl
  | deleteByQuery index query =>
    simp only [StoreCall.index] at hdown hcheck
    have hindices : (s.withUnavailable down).indices = s.indices := rfl
    simp only [answer, Store.deleteByQuery, hdown, hcheck, hindices]
    cases s.indices.find? index <;> rfl

/-- What a call can do to the store. -/
theorem answer_cases (s : Store) (c : StoreCall) : (s.answer c).2 = s ∨
    (∃ items, (s.answer c).2 = s.upserted c.index items) ∨
    ∃ query, (s.answer c).2 = s.without c.index query := by
  by_cases h : c.index ∈ s.unavailable
  · exact .inl (answer_of_unavailable h)
  have hcheck : s.check c.index = .ok () := by rw [check_eq, if_neg h]
  cases c with
  | multiGet index ids => exact .inl rfl
  | scroll index query => exact .inl rfl
  | bulkUpsert index items =>
    simp only [StoreCall.index] at hcheck
    refine .inr (.inl ⟨items, ?_⟩)
    simp only [answer, Store.bulkUpsert, hcheck]
    rfl
  | deleteByQuery index query =>
    simp only [StoreCall.index] at hcheck
    refine .inr (.inr ⟨query, ?_⟩)
    simp only [answer, Store.deleteByQuery, hcheck, without, StoreCall.index]
    cases s.indices.find? index <;> rfl

theorem unavailable_answer (s : Store) (c : StoreCall) : (s.answer c).2.unavailable = s.unavailable := by
  rcases s.answer_cases c with h | ⟨items, h⟩ | ⟨query, h⟩
  · rw [h]
  · rw [h]
    rfl
  · rw [h, without]
    split <;> rfl

/-- Calls keep the documents in the order of their ids. -/
theorem sorted_index_answer (h : ∀ name, (s.index name).Sorted) (c : StoreCall) (name : String) :
    ((s.answer c).2.index name).Sorted := by
  rcases s.answer_cases c with hc | ⟨items, hc⟩ | ⟨query, hc⟩
  · rw [hc]
    exact h name
  · rw [hc, upserted, index_setIndex]
    split
    · exact sorted_foldl_applyItem items (h _)
    · exact h name
  · rw [hc, index_without]
    split
    · exact (h _).filter _
    · exact h name

theorem Usable.answer (h : s.Usable) (c : StoreCall) : (s.answer c).2.Usable :=
  ⟨(s.unavailable_answer c).trans h.available, sorted_index_answer h.ordered c⟩

/-- On an available store every call succeeds. -/
theorem answer_eq_ok (hs : s.Usable) (c : StoreCall) : ∃ x, (s.answer c).1 = .ok x := by
  cases c with
  | multiGet index ids =>
    simp only [answer, Store.multiGet, hs.check]
    exact ⟨_, rfl⟩
  | scroll index query =>
    simp only [answer, Store.scrollPages, hs.check]
    exact ⟨_, rfl⟩
  | bulkUpsert index items =>
    refine ⟨(), ?_⟩
    simp only [answer, hs.bulkUpsert]
  | deleteByQuery index query =>
    refine ⟨(s.selected index query).length, ?_⟩
    simp only [answer, hs.deleteByQuery]

theorem index_answer_of_ne {c : StoreCall} (h : c.index ≠ name) (s : Store) :
    (s.answer c).2.index name = s.index name := by
  rcases s.answer_cases c with hc | ⟨items, hc⟩ | ⟨query, hc⟩
  · rw [hc]
  · rw [hc, upserted, index_setIndex, if_neg h]
    rfl
  · rw [hc, index_without, if_neg h]

end Store

namespace Session

variable {α β : Type}

/-- Every call that the procedure can make goes to one of the indices. -/
def Within (names : List String) : Session α → Prop
  | done _ => True
  | call c next => c.index ∈ names ∧ ∀ reply, (next reply).Within names

theorem within_pure (x : α) : (pure x : Session α).Within names := trivial

theorem Within.mono {more : List String} {p : Session α} (hp : p.Within names) (h : names ⊆ more) :
    p.Within more := by
  induction p with
  | done x => trivial
  | call c next ih => exact ⟨h hp.1, fun reply => ih reply (hp.2 reply)⟩

theorem Within.bind {p : Session α} (hp : p.Within names) {f : α → Session β}
    (hf : ∀ x, (f x).Within names) : (p >>= f).Within names := by
  induction p with
  | done x => exact hf x
  | call c next ih => exact ⟨hp.1, fun reply => ih reply (hp.2 reply)⟩

theorem within_all {ps : List (Session α)} (h : ∀ p ∈ ps, p.Within names) : (all ps).Within names := by
  induction ps with
  | nil => trivial
  | cons p rest ih =>
    obtain ⟨hp, hrest⟩ := List.forall_mem_cons.1 h
    exact hp.bind fun x => (ih hrest).bind fun xs => within_pure (x :: xs)

/-- As long as no call fails, the procedure answers as told. -/
def Ends (post : α → Prop) : Session α → Prop
  | done x => post x
  | call _ next => ∀ x, (next (.ok x)).Ends post

section Ends

variable {post : α → Prop} {p : Session α}

theorem Ends.bind {post' : β → Prop} (hp : p.Ends post) {f : α → Session β} (hf : ∀ x, post x → (f x).Ends post') :
    (p >>= f).Ends post' := by
  induction p with
  | done x => exact hf x hp
  | call c next ih => exact fun x => ih (.ok x) (hp x)

/-- Procedures that run one after the other answer each as told. -/
theorem ends_all {ps : List (Session α)} (h : ∀ p ∈ ps, p.Ends post) : (all ps).Ends fun xs => ∀ x ∈ xs, post x := by
  induction ps with
  | nil => exact List.forall_mem_nil _
  | cons p rest ih =>
    obtain ⟨hp, hrest⟩ := List.forall_mem_cons.1 h
    exact hp.bind fun x hx => (ih hrest).bind fun xs hxs => List.forall_mem_cons.2 ⟨hx, hxs⟩

/-- On a usable store no call fails. -/
theorem Ends.run (hp : p.Ends post) (h : s.Usable) : post (p.run s).1 := by
  induction p generalizing s with
  | done x => exact hp
  | call c next ih =>
    obtain ⟨x, hx⟩ := Store.answer_eq_ok h c
    exact ih _ (hx ▸ hp x) (h.answer c)

end Ends

theorem unavailable_run (p : Session α) (s : Store) : (p.run s).2.unavailable = s.unavailable := by
  induction p generalizing s with
  | done x => rfl
  | call c next ih => exact (ih _ _).trans (s.unavailable_answer c)

theorem sorted_index_run (h : ∀ name, (s.index name).Sorted) (p : Session α) (name : String) :
    ((p.run s).2.index name).Sorted := by
  induction p generalizing s with
  | done x => exact h name
  | call c next ih => exact ih _ (Store.sorted_index_answer h c)

theorem usable_run (h : s.Usable) (p : Session α) : (p.run s).2.Usable :=
  ⟨(p.unavailable_run s).trans h.available, sorted_index_run h.ordered p⟩

theorem Within.index_run {p : Session α} (hp : p.Within names) (hn : name ∉ names) (s : Store) :
    (p.run s).2.index name = s.index name := by
  induction p generalizing s with
  | done x => rfl
  | call c next ih =>
    obtain ⟨hc, hnext⟩ := hp
    refine (ih _ (hnext _) _).trans (Store.index_answer_of_ne ?_ s)
    rintro rfl
    exact hn hc

theorem Within.get?_run {p : Session α} (hp : p.Within names) (hn : name ∉ names) (s : Store) (id : String) :
    (p.run s).2.get? name id = s.get? name id := congrArg (·.find? id) (hp.index_run hn s)

/-- A procedure that calls only unavailable indices changes nothing. -/
theorem Within.run_of_unavailable {p : Session α} (hp : p.Within names)
    (hn : ∀ name ∈ names, name ∈ s.unavailable) : (p.run s).2 = s := by
  induction p with
  | done x => rfl
  | call c next ih =>
    obtain ⟨hc, hnext⟩ := hp
    have hsame := Store.answer_of_unavailable (hn _ hc)
    change ((next (s.answer c).1).run (s.answer c).2).2 = s
    rw [hsame]
    exact ih _ (hnext _)

/-- A procedure that calls no unavailable index does not see that some are. -/
theorem Within.run_withUnavailable {p : Session α} (hp : p.Within names) (hs : s.unavailable = [])
    (hn : ∀ name ∈ names, name ∉ down) :
    p.run (s.withUnavailable down) = ((p.run s).1, (p.run s).2.withUnavailable down) := by
  induction p generalizing s with
  | done x => rfl
  | call c next ih =>
    obtain ⟨hc, hnext⟩ := hp
    have hanswer := Store.answer_withUnavailable hs (hn _ hc)
    change (next ((s.withUnavailable down).answer c).1).run ((s.withUnavailable down).answer c).2 = _
    rw [hanswer]
    exact ih _ (hnext _) ((s.unavailable_answer c).trans hs)

/-- The store after a procedure that runs while the given indices are unavailable, with all of them
available again. -/
def attempt (p : Session α) (down : List String) (s : Store) : Store :=
  (p.run (s.withUnavailable down)).2.withUnavailable []

theorem usable_attempt (h : s.Usable) (p : Session α) (down : List String) : (p.attempt down s).Usable :=
  ⟨rfl, sorted_index_run (s := s.withUnavailable down) h.ordered p⟩

theorem attempt_done (hs : s.unavailable = []) (x : α) (down : List String) : (done x).attempt down s = s :=
  Store.withUnavailable_nil hs

theorem run_withUnavailable_snd (p : Session α) (down : List String) (s : Store) :
    (p.run (s.withUnavailable down)).2 = (p.attempt down s).withUnavailable down := by
  have hdown : (p.run (s.withUnavailable down)).2.unavailable = down := p.unavailable_run _
  unfold attempt
  generalize (p.run (s.withUnavailable down)).2 = t at hdown
  cases t
  cases hdown
  rfl

theorem attempt_bind (p : Session α) (f : α → Session β) (down : List String) (s : Store) :
    (p >>= f).attempt down s = (f (p.run (s.withUnavailable down)).1).attempt down (p.attempt down s) := by
  rw [attempt, attempt, ← run_withUnavailable_snd, run_bind]

theorem attempt_bind_done (p : Session α) (g : α → β) (down : List String) (s : Store) :
    (p >>= fun x => done (g x)).attempt down s = p.attempt down s := attempt_bind p _ down s

theorem attempt_all_cons (p : Session α) (rest : List (Session α)) (down : List String) (s : Store) :
    (all (p :: rest)).attempt down s = (all rest).attempt down (p.attempt down s) := by
  refine (attempt_bind p _ down s).trans ?_
  exact attempt_bind (all rest) _ down _

/-- Procedures that run one after the other, each while the same indices are unavailable. -/
theorem attempt_all (hs : s.unavailable = []) (ps : List (Session α)) (down : List String) :
    (all ps).attempt down s = ps.foldl (fun s p => p.attempt down s) s := by
  induction ps generalizing s with
  | nil => exact attempt_done hs [] down
  | cons p rest ih => exact (attempt_all_cons p rest down s).trans (ih rfl)

theorem Within.index_attempt {p : Session α} (hp : p.Within names) (hn : name ∉ names) (down : List String)
    (s : Store) : (p.attempt down s).index name = s.index name :=
  hp.index_run hn (s.withUnavailable down)

theorem Within.attempt_eq_run {p : Session α} (hp : p.Within names) (hs : s.unavailable = [])
    (hn : ∀ name ∈ names, name ∉ down) : p.attempt down s = (p.run s).2 := by
  rw [attempt, hp.run_withUnavailable hs hn]
  exact Store.withUnavailable_nil ((p.unavailable_run s).trans hs)

/-- A procedure on one index leaves what it leaves on an available store, or all as it was. -/
theorem Within.get?_attempt {p : Session α} {index : String} (hp : p.Within [index]) (hs : s.unavailable = [])
    (down : List String) (name id : String) :
    (p.attempt down s).get? name id = if name ∈ down then s.get? name id else (p.run s).2.get? name id := by
  by_cases hn : name = index
  · subst hn
    by_cases hd : name ∈ down
    · rw [if_pos hd, attempt, hp.run_of_unavailable (List.forall_mem_singleton.2 hd)]
      rfl
    · rw [if_neg hd, hp.attempt_eq_run hs (List.forall_mem_singleton.2 hd)]
  · have hout : name ∉ [index] := fun hm => hn (List.mem_singleton.1 hm)
    rw [hp.get?_run hout, ite_self]
    exact congrArg (·.find? id) (hp.index_attempt hout down s)

end Session

namespace StoreM

variable {α β : Type}

/-- Every call that the procedure can make goes to one of the indices. -/
def Within (names : List String) (p : StoreM α) : Prop := Session.Within names p.run

theorem within_pure (x : α) : (pure x : StoreM α).Within names := trivial

theorem Within.mono {more : List String} {p : StoreM α} (hp : p.Within names) (h : names ⊆ more) :
    p.Within more := Session.Within.mono hp h

theorem Within.bind {p : StoreM α} (hp : p.Within names) {f : α → StoreM β}
    (hf : ∀ x, (f x).Within names) : (p >>= f).Within names := by
  refine Session.Within.bind hp fun outcome => ?_
  cases outcome with
  | ok x => exact hf x
  | error e => trivial

theorem within_multiGet (index : String) (ids : List String) : (multiGet index ids).Within [index] :=
  ⟨List.mem_singleton_self _, fun _ => trivial⟩

theorem within_bulkUpsert (index : String) (items : List WriteItem) :
    (bulkUpsert index items).Within [index] :=
  ⟨List.mem_singleton_self _, fun _ => trivial⟩

theorem within_scroll (index : String) (query : Query) : (scroll index query).Within [index] :=
  Within.bind (p := perform (.scroll index query)) ⟨List.mem_singleton_self _, fun _ => trivial⟩
    fun _ => within_pure _

theorem within_deleteByQuery (index : String) (query : Query) : (deleteByQuery index query).Within [index] :=
  ⟨List.mem_singleton_self _, fun _ => trivial⟩

/-- What a procedure on one index leaves of it, unless it is unavailable. -/
theorem Gives.get?_attempt {p : StoreM α} {x : α} {index : String} (h : p.Gives s x t)
    (hp : p.Within [index]) (hs : s.Usable) (down : List String) (name id : String) :
    (Session.attempt p.run down s).get? name id = if name ∈ down then s.get? name id else t.get? name id := by
  rw [Session.Within.get?_attempt hp hs.available, h]

/-- A procedure that calls no unavailable index succeeds as if there were none. -/
theorem Gives.withUnavailable {p : StoreM α} {x : α} (h : p.Gives s x t) (hp : p.Within names) (hs : s.Usable)
    (hn : ∀ name ∈ names, name ∉ down) : p.Gives (s.withUnavailable down) x (t.withUnavailable down) := by
  have hrun := Session.Within.run_withUnavailable hp hs.available hn
  unfold Gives at *
  rw [hrun, h]

theorem Gives.usable {p : StoreM α} {x : α} (h : p.Gives s x t) (hs : s.Usable) : t.Usable := by
  have hrun := Session.usable_run hs p.run
  rwa [h] at hrun

section Succeeds

variable {p : StoreM α}

def Succeeds (p : StoreM α) : Prop := Session.Ends (fun outcome => ∃ x, outcome = .ok x) p.run

theorem Succeeds.gives (h : p.Succeeds) (hs : s.Usable) : ∃ x t, p.Gives s x t := by
  obtain ⟨x, hx⟩ := Session.Ends.run h hs
  exact ⟨x, _, Prod.ext hx rfl⟩

theorem succeeds_pure (x : α) : (pure x : StoreM α).Succeeds := ⟨x, rfl⟩

theorem Succeeds.bind (hp : p.Succeeds) {f : α → StoreM β} (hf : ∀ x, (f x).Succeeds) : (p >>= f).Succeeds := by
  refine Session.Ends.bind hp fun outcome houtcome => ?_
  obtain ⟨x, rfl⟩ := houtcome
  exact hf x

theorem succeeds_perform (call : StoreCall) : (perform call).Succeeds := fun x => ⟨x, rfl⟩

theorem succeeds_multiGet (index : String) (ids : List String) : (multiGet index ids).Succeeds := succeeds_perform _

theorem succeeds_bulkUpsert (index : String) (items : List WriteItem) : (bulkUpsert index items).Succeeds :=
  succeeds_perform _

theorem succeeds_scroll (index : String) (query : Query) : (scroll index query).Succeeds :=
  (succeeds_perform (.scroll index query)).bind fun _ => succeeds_pure _

theorem succeeds_deleteByQuery (index : String) (query : Query) : (deleteByQuery index query).Succeeds :=
  succeeds_perform _

/-- Procedures that are all attempted. -/
theorem succeeds_all (ps : List (StoreM α)) (h : ∀ p ∈ ps, p.Succeeds) :
    Succeeds (ExceptT.mk do
      let outcomes ← Session.all (ps.map (·.run))
      return firstError outcomes) :=
  Session.Ends.bind (Session.ends_all (List.forall_mem_map.2 h)) fun _ houtcomes =>
    ⟨(), firstError_eq_ok_iff.2 houtcomes⟩

end Succeeds

/-- What a procedure that changes nothing answers is all that matters of it. -/
theorem Gives.attempt_bind {p : StoreM α} {x : α} (h : p.Gives (s.withUnavailable down) x (s.withUnavailable down))
    (hs : s.Usable) (f : α → StoreM β) :
    Session.attempt (p >>= f).run down s = Session.attempt (f x).run down s := by
  have hstore : Session.attempt p.run down s = s := by
    rw [Session.attempt, h]
    exact hs.withUnavailable_nil
  rw [ExceptT.run_bind, Session.attempt_bind, h, hstore]

theorem run_multiGet_of_unavailable (ids : List String) {index : String} (h : index ∈ s.unavailable) :
    Session.run (multiGet index ids).run s = (.error (Store.unavailableError index), s) := by
  change (s.multiGet _ _, s) = _
  rw [Store.multiGet, Store.check_eq, if_pos h]
  rfl

/-- A procedure that starts with reading from an unavailable index changes nothing. -/
theorem attempt_multiGet_bind (hs : s.Usable) {index : String} (h : index ∈ down) (ids : List String)
    (f : List (Option Value) → StoreM β) : Session.attempt (multiGet index ids >>= f).run down s = s := by
  have hread := run_multiGet_of_unavailable (s := s.withUnavailable down) ids h
  have hstore : Session.attempt (multiGet index ids).run down s = s := by
    rw [Session.attempt, hread]
    exact hs.withUnavailable_nil
  rw [ExceptT.run_bind, Session.attempt_bind, hread, hstore]
  exact Session.attempt_done hs.available _ down

end StoreM
end ChainIndex
