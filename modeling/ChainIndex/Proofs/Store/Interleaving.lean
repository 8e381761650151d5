import ChainIndex.Proofs.Store.Unavailable

/-!
Two procedures on one store, the calls of each in order and one at a time. What one of them comes to
is told by conditions that the calls of the other keep, and of the other it is enough to know which
writes to a document are still to come.
-/
namespace ChainIndex
namespace Session

variable {α β γ : Type}

/-- The first procedure runs to its end, while the second makes some of its calls in between. -/
inductive Amid : Session α → Session β → Store → α → Session β → Store → Prop
  | done (x : α) (q : Session β) (s : Store) : Amid (.done x) q s x q s
  | own {c : StoreCall} {next : c.Reply → Session α} {q q' : Session β} {s t : Store} {x : α} :
      Amid (next (s.answer c).1) q (s.answer c).2 x q' t → Amid (.call c next) q s x q' t
  | other {p : Session α} {c : StoreCall} {next : c.Reply → Session β} {q' : Session β} {s t : Store}
      {x : α} : Amid p (next (s.answer c).1) (s.answer c).2 x q' t → Amid p (.call c next) s x q' t

/-- Both procedures run to their ends, with their calls in any order that keeps those of each. -/
def Interleaved (p : Session α) (q : Session β) (s : Store) (x : α) (y : β) (t : Store) : Prop :=
  Amid p q s x (.done y) t

/-- A run of the first procedure, with none of the calls of the second. -/
theorem amid_run (p : Session α) (q : Session β) (s : Store) : Amid p q s (p.run s).1 q (p.run s).2 := by
  induction p generalizing s with
  | done x => exact .done x q s
  | call c next ih => exact .own (ih _ _)

/-- The whole second procedure, and then the first. -/
theorem amid_after (p : Session α) (q : Session β) (s : Store) :
    Amid p q s (p.run (q.run s).2).1 (.done (q.run s).1) (p.run (q.run s).2).2 := by
  induction q generalizing s with
  | done y => exact amid_run p (.done y) s
  | call c next ih => exact .other (ih _ _)

/-- After some calls of the procedure the other one and the store are left. -/
inductive Reaches : Session α → Store → Session α → Store → Prop
  | refl (p : Session α) (s : Store) : Reaches p s p s
  | call {c : StoreCall} {next : c.Reply → Session α} {r : Session α} {s u : Store} :
      Reaches (next (s.answer c).1) (s.answer c).2 r u → Reaches (.call c next) s r u

/-- What the second procedure does from where the first one has come to. -/
theorem Reaches.amid {p r : Session α} {q q' : Session β} {s u t : Store} {x : α} (h : p.Reaches s r u)
    (ha : Amid r q u x q' t) : Amid p q s x q' t := by
  induction h with
  | refl p s => exact ha
  | call _ ih => exact .own (ih ha)

theorem Reaches.bind {p r : Session α} {s u : Store} (h : p.Reaches s r u) (f : α → Session γ) :
    (p >>= f).Reaches s (r >>= f) u := by
  induction h with
  | refl p s => exact .refl _ _
  | call _ ih => exact .call ih

/-- A procedure has come to its second part when the first part has run. -/
theorem reaches_bind (p : Session α) (f : α → Session γ) {r : Session γ} {s u : Store}
    (h : (f (p.run s).1).Reaches (p.run s).2 r u) : (p >>= f).Reaches s r u := by
  induction p generalizing s with
  | done x => exact h
  | call c next ih => exact .call (ih _ h)

def steps : Session α → Store → Nat → Store × Session α
  | p, s, 0 => (s, p)
  | p, s, n + 1 => steps (p.step s).2 (p.step s).1 n

theorem reaches_steps (n : Nat) (p : Session α) (s : Store) : p.Reaches s (p.steps s n).2 (p.steps s n).1 := by
  induction n generalizing p s with
  | zero => exact .refl p s
  | succ n ih =>
    have hrest := ih (p.step s).2 (p.step s).1
    cases p with
    | done x => exact hrest
    | call c next => exact .call hrest

theorem Reaches.usable {p r : Session α} {s u : Store} (h : p.Reaches s r u) (hs : s.Usable) : u.Usable := by
  induction h with
  | refl p s => exact hs
  | @call c _ _ _ _ _ ih => exact ih (hs.answer c)

theorem Reaches.ends {p r : Session α} {s u : Store} {post : α → Prop} (h : p.Reaches s r u) (hs : s.Usable)
    (hp : p.Ends post) : r.Ends post := by
  induction h with
  | refl p s => exact hp
  | @call c _ _ _ _ _ ih =>
    obtain ⟨x, hx⟩ := Store.answer_eq_ok hs c
    exact ih (hs.answer c) (hx ▸ hp x)

section Decides

variable {name id : String} {after : Option Value} {p : Session α} {f : α → Session γ} {s : Store}

def Spares (name id : String) (p : Session α) : Prop :=
  ∀ s : Store, s.Usable → (p.run s).2.get? name id = s.get? name id

theorem Within.spares {names : List String} (hp : p.Within names) (hn : name ∉ names) : p.Spares name id :=
  fun s _ => hp.get?_run hn s id

theorem Spares.bind (hp : p.Spares name id) (hf : ∀ x, (f x).Spares name id) : (p >>= f).Spares name id := by
  intro s hs
  rw [run_bind]
  exact (hf _ _ (usable_run hs p)).trans (hp s hs)

theorem spares_done (x : α) : (done x : Session α).Spares name id := fun _ _ => rfl

theorem spares_all {ps : List (Session α)} (h : ∀ p ∈ ps, p.Spares name id) : (all ps).Spares name id := by
  induction ps with
  | nil => exact spares_done []
  | cons p rest ih =>
    obtain ⟨hp, hrest⟩ := List.forall_mem_cons.1 h
    exact hp.bind fun x => (ih hrest).bind fun xs => spares_done (x :: xs)

/-- At some point of the run from the store it is decided what the procedure leaves of the document,
whatever others write since. -/
def Decides (name id : String) (after : Option Value) (p : Session α) (s : Store) : Prop :=
  ∃ r u, p.Reaches s r u ∧ ∀ t : Store, t.Usable → (r.run t).2.get? name id = after

theorem Decides.bind (hp : p.Decides name id after s) (hf : ∀ x, (f x).Spares name id) :
    (p >>= f).Decides name id after s := by
  obtain ⟨r, u, hreach, hafter⟩ := hp
  refine ⟨r >>= f, u, hreach.bind f, fun t ht => ?_⟩
  rw [run_bind]
  exact (hf _ _ (usable_run ht r)).trans (hafter t ht)

theorem decides_bind (p : Session α) (f : α → Session γ)
    (h : (f (p.run s).1).Decides name id after (p.run s).2) : (p >>= f).Decides name id after s := by
  obtain ⟨r, u, hreach, hafter⟩ := h
  exact ⟨r, u, reaches_bind p f hreach, hafter⟩

theorem Decides.all_cons {rest : List (Session α)} (hp : p.Decides name id after s)
    (hrest : ∀ q ∈ rest, q.Spares name id) : (all (p :: rest)).Decides name id after s :=
  hp.bind fun x => (spares_all hrest).bind fun xs => spares_done (x :: xs)

theorem decides_all_cons {rest : List (Session α)} (h : (all rest).Decides name id after (p.run s).2) :
    (all (p :: rest)).Decides name id after s :=
  decides_bind p _ (h.bind fun _ => spares_done _)

/-- One of the procedures decides, with the store that those before it leave. -/
theorem decides_all {first rest : List (Session α)} (hp : p.Decides name id after ((all first).run s).2)
    (hrest : ∀ q ∈ rest, q.Spares name id) : (all (first ++ p :: rest)).Decides name id after s := by
  induction first generalizing s with
  | nil => exact hp.all_cons hrest
  | cons q more ih =>
    rw [run_all_cons] at hp
    exact decides_all_cons (ih hp)

/-- What another procedure writes to the document is lost when it runs at that point. -/
theorem Decides.interleaved {q : Session β} {post : α → Prop} {post' : β → Prop}
    (h : p.Decides name id after s) (hs : s.Usable) (hp : p.Ends post) (hq : q.Ends post') :
    ∃ x y t, Interleaved p q s x y t ∧ post x ∧ post' y ∧ t.get? name id = after := by
  obtain ⟨r, u, hreach, hafter⟩ := h
  have hu := hreach.usable hs
  have ht := usable_run hu q
  exact ⟨_, _, _, hreach.amid (amid_after r q u), (hreach.ends hs hp).run ht, hq.run hu, hafter _ ht⟩

end Decides

/-- Where two procedures run one after the other amid a third, the third is somewhere in between when the second
begins. -/
theorem amid_bind {p : Session α} {f : α → Session γ} {q q' : Session β} {s t : Store} {y : γ}
    (h : Amid (p >>= f) q s y q' t) : ∃ x q₁ s₁, Amid p q s x q₁ s₁ ∧ Amid (f x) q₁ s₁ y q' t := by
  generalize hr : p >>= f = r at h
  induction h generalizing p with
  | done y q s =>
    cases p with
    | done x =>
      have hf : f x = .done y := hr
      exact ⟨x, q, s, .done x q s, hf ▸ .done y q s⟩
    | call c next => cases hr
  | own hrest ih =>
    cases p with
    | done x =>
      have hf : f x = .call _ _ := hr
      exact ⟨x, _, _, .done x _ _, hf ▸ .own hrest⟩
    | call c next =>
      cases hr
      obtain ⟨x, q₁, s₁, hp, hf⟩ := ih rfl
      exact ⟨x, q₁, s₁, .own hp, hf⟩
  | other _ ih =>
    obtain ⟨x, q₁, s₁, hp, hf⟩ := ih hr
    exact ⟨x, q₁, s₁, .other hp, hf⟩

/-- The calls of the other procedure keep the condition on it and on the store. -/
def Stable (I : Session β → Store → Prop) : Prop :=
  ∀ c next s, I (.call c next) s → I (next (s.answer c).1) (s.answer c).2

/-- From the first condition the procedure comes to the second, whatever calls of the other fall in
between. -/
def Meets (I : Session β → Store → Prop) (p : Session α) (J : α → Session β → Store → Prop) : Prop :=
  ∀ q s x q' t, I q s → Amid p q s x q' t → J x q' t

variable {I : Session β → Store → Prop} {J : α → Session β → Store → Prop}

theorem Stable.or {K : Session β → Store → Prop} (hI : Stable I) (hK : Stable K) :
    Stable fun q s => I q s ∨ K q s :=
  fun c next s h => h.imp (hI c next s) (hK c next s)

theorem Stable.and_of (hI : Stable I) (P : Prop) : Stable fun q s => P ∧ I q s :=
  fun c next s h => ⟨h.1, hI c next s h.2⟩

/-- What does not depend on the store is known from the start. -/
theorem meets_of_imp {P : Prop} {p : Session α} (h : P → Meets I p J) : Meets (fun q s => P ∧ I q s) p J :=
  fun q s x q' t hq => h hq.1 q s x q' t hq.2

theorem Meets.or {K : Session β → Store → Prop} {p : Session α} (hI : Meets I p J) (hK : Meets K p J) :
    Meets (fun q s => I q s ∨ K q s) p J :=
  fun q s x q' t hq => hq.elim (hI q s x q' t) (hK q s x q' t)

theorem meets_done (J : α → Session β → Store → Prop) {x : α} (hJ : Stable (J x)) :
    Meets (J x) (.done x) J := by
  intro q s y q' t hq h
  generalize hp : Session.done x = p at h
  induction h with
  | done y q s =>
    cases hp
    exact hq
  | own _ _ => cases hp
  | other _ ih => exact ih (hJ _ _ _ hq) hp

theorem Stable.meets_done (hI : Stable I) (x : α) : Meets I (.done x) fun _ => I :=
  Session.meets_done (fun _ => I) hI

/-- Calls of the other procedure keep the first condition, and then the procedure's own call is answered. -/
theorem meets_call {c : StoreCall} {next : c.Reply → Session α} {K : c.Reply → Session β → Store → Prop}
    (hI : Stable I) (hown : ∀ q s, I q s → K (s.answer c).1 q (s.answer c).2)
    (hnext : ∀ reply, Meets (K reply) (next reply) J) : Meets I (.call c next) J := by
  intro q s x q' t hq h
  generalize hp : Session.call c next = p at h
  induction h with
  | done y q s => cases hp
  | own hrest _ =>
    cases hp
    exact hnext _ _ _ _ _ _ (hown _ _ hq) hrest
  | other _ ih => exact ih (hI _ _ _ hq) hp

theorem Meets.bind {p : Session α} {f : α → Session γ} {K : γ → Session β → Store → Prop}
    (hp : Meets I p J) (hf : ∀ x, Meets (J x) (f x) K) : Meets I (p >>= f) K := by
  intro q s y q' t hq h
  obtain ⟨x, q₁, s₁, hfirst, hsecond⟩ := amid_bind h
  exact hf x _ _ _ _ _ (hp _ _ _ _ _ hq hfirst) hsecond

theorem Meets.weaken {p : Session α} {I' : Session β → Store → Prop} {J' : α → Session β → Store → Prop}
    (h : Meets I p J) (hI : ∀ q s, I' q s → I q s) (hJ : ∀ x q s, J x q s → J' x q s) : Meets I' p J' :=
  fun q s x q' t hq ha => hJ x q' t (h q s x q' t (hI q s hq) ha)

theorem meets_bind_done {p : Session α} {I K : Session β → Store → Prop} (hp : Meets I p fun _ => K)
    (hK : Stable K) (g : α → γ) : Meets I (p >>= fun x => done (g x)) fun _ => K :=
  hp.bind fun x => hK.meets_done (g x)

theorem meets_all_nil {I : Session β → Store → Prop} (hI : Stable I) :
    Meets I (all ([] : List (Session α))) fun _ => I :=
  hI.meets_done []

/-- Procedures that run one after the other. -/
theorem Meets.all_cons {p : Session α} {rest : List (Session α)} {I K L : Session β → Store → Prop}
    (hp : Meets I p fun _ => K) (hrest : Meets K (all rest) fun _ => L) (hL : Stable L) :
    Meets I (all (p :: rest)) fun _ => L :=
  hp.bind fun _ => meets_bind_done hrest hL _

def Concerns (I : Session β → Store → Prop) (names : List String) : Prop :=
  (∀ q s, I q s → s.Usable) ∧
    ∀ q s t, t.Usable → (∀ name ∈ names, t.index name = s.index name) → I q s → I q t

theorem Concerns.or {I K : Session β → Store → Prop} {names : List String} (hI : Concerns I names)
    (hK : Concerns K names) : Concerns (fun q s => I q s ∨ K q s) names :=
  ⟨fun q s h => h.elim (hI.1 q s) (hK.1 q s), fun q s t ht hindex h =>
    h.imp (hI.2 q s t ht hindex) (hK.2 q s t ht hindex)⟩

/-- A procedure keeps every condition on indices that it does not call. -/
theorem Within.meets {p : Session α} {names others : List String} (hp : p.Within others) (hI : Stable I)
    (hc : Concerns I names) (hn : ∀ name ∈ names, name ∉ others) : Meets I p fun _ => I := by
  induction p with
  | done x => exact hI.meets_done x
  | call c next ih =>
    obtain ⟨hcall, hnext⟩ := hp
    refine meets_call (K := fun _ => I) hI (fun q s hq => ?_) fun reply => ih reply (hnext reply)
    have husable := hc.1 q s hq
    refine hc.2 q s _ (husable.answer c) (fun name hm => Store.index_answer_of_ne ?_ s) hq
    rintro rfl
    exact hn _ hm hcall

end Session

namespace StoreCall

def actionsAt : StoreCall → String → String → List WriteAction
  | bulkUpsert index items, name, id => if index = name then WriteItem.actionsOf id items else []
  | _, _, _ => []

def isDelete : StoreCall → Bool
  | deleteByQuery _ _ => true
  | _ => false

end StoreCall

namespace Store

variable {s : Store}

/-- On an available store a call changes a document by its writes. -/
theorem get?_answer (hs : s.Usable) {c : StoreCall} (hc : c.isDelete = false) (name id : String) :
    (s.answer c).2.get? name id = WriteAction.applyAll (c.actionsAt name id) (s.get? name id) := by
  cases c with
  | multiGet index ids => rfl
  | scroll index query => rfl
  | deleteByQuery index query => cases hc
  | bulkUpsert index items =>
    have hanswer : (s.answer (.bulkUpsert index items)).2 = s.upserted index items := by
      simp only [answer, hs.bulkUpsert]
    rw [hanswer, get?_upserted, StoreCall.actionsAt]
    split
    · exact WriteItem.applyAt_eq_applyAll id _ items
    · rfl

end Store

namespace Session

variable {α β : Type} {name id : String} {post : α → Prop} {actions : List WriteAction}

/-- As long as no call fails, the procedure deletes nothing by query, its writes to the document are
those given, and it answers as told. -/
def Sends (name id : String) (post : α → Prop) : List WriteAction → Session α → Prop
  | actions, done x => actions = [] ∧ post x
  | actions, call c next => c.isDelete = false ∧ ∃ rest, actions = c.actionsAt name id ++ rest ∧
      ∀ x, (next (.ok x)).Sends name id post rest

theorem Sends.bind {p : Session α} {f : α → Session β} {post' : β → Prop} {more : List WriteAction}
    (hp : p.Sends name id post actions) (hf : ∀ x, post x → (f x).Sends name id post' more) :
    (p >>= f).Sends name id post' (actions ++ more) := by
  induction p generalizing actions with
  | done x =>
    obtain ⟨rfl, hx⟩ := hp
    exact hf x hx
  | call c next ih =>
    obtain ⟨hc, rest, rfl, hrest⟩ := hp
    exact ⟨hc, rest ++ more, List.append_assoc _ _ _, fun x => ih (.ok x) (hrest x)⟩

theorem Sends.ends {p : Session α} (hp : p.Sends name id post actions) : p.Ends post := by
  induction p generalizing actions with
  | done x => exact hp.2
  | call c next ih =>
    obtain ⟨-, rest, -, hrest⟩ := hp
    exact fun x => ih (.ok x) (hrest x)

theorem sends_done {x : α} (hx : post x) : (done x : Session α).Sends name id post [] := ⟨rfl, hx⟩

theorem Sends.map {p : Session α} {post' : β → Prop} (hp : p.Sends name id post actions) (g : α → β)
    (hg : ∀ x, post x → post' (g x)) : (p >>= fun x => done (g x)).Sends name id post' actions := by
  have hmapped : (p >>= fun x => done (g x)).Sends name id post' (actions ++ []) :=
    hp.bind fun x hx => sends_done (hg x hx)
  rwa [List.append_nil] at hmapped

/-- The writes of procedures that run one after the other. -/
theorem Sends.all_cons {p : Session α} {rest : List (Session α)} {more : List WriteAction}
    (hp : p.Sends name id post actions)
    (hrest : (all rest).Sends name id (fun xs => ∀ x ∈ xs, post x) more) :
    (all (p :: rest)).Sends name id (fun xs => ∀ x ∈ xs, post x) (actions ++ more) := by
  refine hp.bind fun x hx => hrest.map _ fun xs hxs => ?_
  exact List.forall_mem_cons.2 ⟨hx, hxs⟩

/-- The document while the procedure is under way: some of its writes, at most one in all, may still
be to come. -/
structure Underway (name id : String) (post : α → Prop) (actions : List WriteAction) (before : Option Value)
    (q : Session α) (s : Store) : Prop where
  usable : s.Usable
  state : (q.Sends name id post actions ∧ s.get? name id = before) ∨
    (q.Sends name id post [] ∧ s.get? name id = WriteAction.applyAll actions before)

/-- With one write at most to come, a call of the procedure makes it, or leaves the document alone. -/
theorem stable_underway (h : actions.length ≤ 1) (before : Option Value) :
    Stable (Underway name id post actions before) := by
  intro c next s ⟨hs, hstate⟩
  obtain ⟨x, hx⟩ := Store.answer_eq_ok hs c
  have hget (hc : c.isDelete = false) := Store.get?_answer hs hc name id
  refine ⟨hs.answer c, ?_⟩
  rw [hx]
  rcases hstate with ⟨⟨hc, rest, rfl, hrest⟩, hdoc⟩ | ⟨⟨hc, rest, hnil, hrest⟩, hdoc⟩
  · cases hnow : c.actionsAt name id with
    | nil => exact .inl ⟨hrest x, by rw [hget hc, hnow, hdoc]; rfl⟩
    | cons action more =>
      have hlast : more ++ rest = [] := by
        rw [hnow] at h
        simpa using h
      obtain ⟨rfl, rfl⟩ := List.append_eq_nil_iff.1 hlast
      exact .inr ⟨hrest x, by rw [hget hc, hnow, hdoc]; rfl⟩
  · obtain ⟨hnow, rfl⟩ := List.append_eq_nil_iff.1 hnil.symm
    exact .inr ⟨hrest x, by rw [hget hc, hnow, hdoc]; rfl⟩

theorem concerns_underway (before : Option Value) :
    Concerns (Underway name id post actions before) [name] := by
  refine ⟨fun q s h => h.usable, fun q s t ht hindex ⟨_, hstate⟩ => ⟨ht, ?_⟩⟩
  have hget : t.get? name id = s.get? name id :=
    congrArg (·.find? id) (hindex name (List.mem_singleton_self name))
  rwa [hget]

/-- The document as it is when what was done to it came before the writes of the procedure, or, as
`last`, after all of them. -/
def Either (name id : String) (post : α → Prop) (actions : List WriteAction) (first last : Option Value)
    (q : Session α) (s : Store) : Prop :=
  Underway name id post actions first q s ∨ Underway name id post [] last q s

theorem stable_either (h : actions.length ≤ 1) (first last : Option Value) :
    Stable (Either name id post actions first last) := by
  have hnil : ([] : List WriteAction).length ≤ 1 := Nat.zero_le 1
  exact (stable_underway h first).or (stable_underway hnil last)

theorem concerns_either (first last : Option Value) :
    Concerns (Either name id post actions first last) [name] :=
  (concerns_underway first).or (concerns_underway last)

/-- Calls of other indices do not change it. -/
theorem Within.meets_either {γ : Type} {p : Session γ} {others : List String} (hp : p.Within others)
    (hn : name ∉ others) (h : actions.length ≤ 1) (first last : Option Value) :
    Meets (Either name id post actions first last) p fun _ => Either name id post actions first last := by
  refine hp.meets (stable_either h first last) (concerns_either first last) fun index hi => ?_
  rw [List.mem_singleton.1 hi]
  exact hn

/-- When the procedure has ended, all of its writes are done. -/
theorem Underway.ended {x : α} {before : Option Value} {s : Store}
    (h : Underway name id post actions before (.done x) s) :
    post x ∧ s.get? name id = WriteAction.applyAll actions before := by
  obtain ⟨⟨rfl, hx⟩, hdoc⟩ | ⟨⟨-, hx⟩, hdoc⟩ := h.state
  · exact ⟨hx, hdoc⟩
  · exact ⟨hx, hdoc⟩

end Session

namespace StoreM

variable {α β : Type} {name id : String} {post : α → Prop} {actions : List WriteAction}

/-- It is decided later in a procedure what becomes of the document. -/
theorem Gives.decides {s t : Store} {after : Option Value} {p : StoreM α} {f : α → StoreM β} {x : α}
    (hp : p.Gives s x t) (hf : Session.Decides name id after (f x).run t) :
    Session.Decides name id after (p >>= f).run s := by
  refine Session.decides_bind p.run _ ?_
  rw [show Session.run p.run s = (.ok x, t) from hp]
  exact hf

def Sends (name id : String) (post : α → Prop) (actions : List WriteAction) (p : StoreM α) : Prop :=
  Session.Sends name id (fun outcome => ∃ x, outcome = .ok x ∧ post x) actions p.run

theorem sends_pure {x : α} (hx : post x) : (pure x : StoreM α).Sends name id post [] := ⟨rfl, x, rfl, hx⟩

theorem Sends.bind {p : StoreM α} {f : α → StoreM β} {post' : β → Prop} {more : List WriteAction}
    (hp : p.Sends name id post actions) (hf : ∀ x, post x → (f x).Sends name id post' more) :
    (p >>= f).Sends name id post' (actions ++ more) := by
  refine Session.Sends.bind hp fun outcome houtcome => ?_
  obtain ⟨x, rfl, hx⟩ := houtcome
  exact hf x hx

theorem sends_multiGet (name id index : String) (ids : List String) :
    (multiGet index ids).Sends name id (fun _ => True) [] :=
  ⟨rfl, [], rfl, fun x => ⟨rfl, x, rfl, trivial⟩⟩

theorem sends_bulkUpsert (name id index : String) (items : List WriteItem) :
    (bulkUpsert index items).Sends name id (fun _ => True)
      (if index = name then WriteItem.actionsOf id items else []) :=
  ⟨rfl, [], (List.append_nil _).symm, fun x => ⟨rfl, x, rfl, trivial⟩⟩

theorem sends_scroll (name id index : String) (query : Query) :
    (scroll index query).Sends name id (fun _ => True) [] :=
  ⟨rfl, [], rfl, fun _ => ⟨rfl, _, rfl, trivial⟩⟩

section Meets

variable {I : Session β → Store → Prop} {s : Store}

theorem meets_bind {γ : Type} {p : StoreM α} {f : α → StoreM γ} {K : α → Session β → Store → Prop}
    {J : Except StoreError γ → Session β → Store → Prop}
    (hp : Session.Meets I p.run fun outcome q s => ∃ x, outcome = .ok x ∧ K x q s)
    (hf : ∀ x, Session.Meets (K x) (f x).run J) : Session.Meets I (p >>= f).run J := by
  refine Session.Meets.bind hp fun outcome q s y q' t hq ha => ?_
  obtain ⟨x, rfl, hx⟩ := hq
  exact hf x q s y q' t hx ha

/-- A procedure without calls comes to its result at once. -/
theorem meets_pure (K : α → Session β → Store → Prop) {x : α} (hK : Session.Stable (K x)) :
    Session.Meets (K x) (pure x : StoreM α).run fun outcome q s => ∃ x, outcome = .ok x ∧ K x q s := by
  have hstable : Session.Stable fun q s => (.ok x : Except StoreError α) = .ok x ∧ K x q s :=
    fun c next s h => ⟨rfl, hK c next s h.2⟩
  exact (Session.meets_done (fun outcome q s => outcome = .ok x ∧ K x q s) hstable).weaken
    (fun q s h => ⟨rfl, h⟩) fun outcome q s h => ⟨x, h⟩

/-- A call that reads answers by the store as it is then. -/
theorem meets_multiGet (K : List (Option Value) → Session β → Store → Prop) (hI : Session.Stable I)
    (hu : ∀ q s, I q s → s.Usable) (index : String) (ids : List String)
    (hread : ∀ q s, I q s → K (ids.map (s.get? index)) q s) (hK : ∀ docs, Session.Stable (K docs)) :
    Session.Meets I (multiGet index ids).run fun outcome q s => ∃ docs, outcome = .ok docs ∧ K docs q s := by
  let J (outcome : Except StoreError (List (Option Value))) (q : Session β) (s : Store) : Prop :=
    ∃ docs, outcome = .ok docs ∧ K docs q s
  refine Session.meets_call (K := J) hI (fun q s hq => ?_) fun outcome => Session.meets_done J ?_
  · exact ⟨_, congrArg Prod.fst (gives_multiGet (hu q s hq) index ids), hread q s hq⟩
  · rintro c next s ⟨docs, hdocs, h⟩
    exact ⟨docs, hdocs, hK docs c next s h⟩

theorem meets_scroll (K : List Document → Session β → Store → Prop) (hI : Session.Stable I)
    (hu : ∀ q s, I q s → s.Usable) (index : String) (query : Query)
    (hread : ∀ q s, I q s → K (s.selected index query) q s) (hK : ∀ docs, Session.Stable (K docs)) :
    Session.Meets I (scroll index query).run fun outcome q s => ∃ docs, outcome = .ok docs ∧ K docs q s := by
  let J (outcome : Except StoreError (List (List Document))) (q : Session β) (s : Store) : Prop :=
    ∃ found, outcome = .ok found ∧ K found.flatten q s
  have hcall : Session.Meets I (perform (.scroll index query)).run J := by
    refine Session.meets_call (K := J) hI (fun q s hq => ?_) fun outcome => Session.meets_done J ?_
    · have hpages : s.scrollPages index query = .ok (Store.pages s.pageSize (s.selected index query)) := by
        unfold Store.scrollPages
        rw [(hu q s hq).check]
        rfl
      refine ⟨_, hpages, ?_⟩
      rw [Store.flatten_pages]
      exact hread q s hq
    · rintro c next s ⟨found, hfound, h⟩
      exact ⟨found, hfound, hK _ c next s h⟩
  exact meets_bind hcall fun found => meets_pure K (hK _)

/-- A write of a known document comes before the write of the other procedure, or after it. -/
theorem meets_bulkUpsert {post : β → Prop} (h : actions.length ≤ 1) {first : Option Value}
    (last : Option Value) (items : List WriteItem)
    (hlast : WriteItem.applyAt id items (WriteAction.applyAll actions first) =
        WriteAction.applyAll actions (WriteItem.applyAt id items first) ∨
      WriteItem.applyAt id items (WriteAction.applyAll actions first) = last) :
    Session.Meets (Session.Underway name id post actions first) (bulkUpsert name items).run
      fun _ => Session.Either name id post actions (WriteItem.applyAt id items first) last := by
  refine Session.meets_call (Session.stable_underway h first)
    (K := fun _ => Session.Either name id post actions (WriteItem.applyAt id items first) last)
    (fun q s hq => ?_) fun outcome => (Session.stable_either h _ _).meets_done outcome
  have hanswer : (s.answer (.bulkUpsert name items)).2 = s.upserted name items := by
    simp only [Store.answer, hq.usable.bulkUpsert]
  have husable := hq.usable.upserted name items
  have hget : (s.upserted name items).get? name id = WriteItem.applyAt id items (s.get? name id) := by
    rw [Store.get?_upserted, if_pos rfl]
  rw [hanswer]
  obtain ⟨hsends, hdoc⟩ | ⟨hsends, hdoc⟩ := hq.state
  · exact .inl ⟨husable, .inl ⟨hsends, by rw [hget, hdoc]⟩⟩
  · rw [hdoc] at hget
    obtain hfirst | hafter := hlast
    · exact .inl ⟨husable, .inr ⟨hsends, hget.trans hfirst⟩⟩
    · exact .inr ⟨husable, .inl ⟨hsends, hget.trans hafter⟩⟩

end Meets

end StoreM
end ChainIndex
