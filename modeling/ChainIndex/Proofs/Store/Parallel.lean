import ChainIndex.Proofs.Store.Unavailable

/-!
Named procedures that run at once over anything that answers calls, any of them making the next one.
Where each calls only the index that it is named for, what goes to that index is a run of it alone. To
run them one after the other is one way.
-/
namespace ChainIndex

structure Exchange where
  call : StoreCall
  reply : call.Reply

def Exchange.outcome (x : Exchange) : Except StoreError Unit := x.reply.map fun _ => ()

namespace Session

variable {α σ : Type} {answer : σ → (c : StoreCall) → c.Reply × σ}

inductive Runs : Session α → List Exchange → α → Prop
  | done (x : α) : Runs (.done x) [] x
  | call {c : StoreCall} {next : c.Reply → Session α} (reply : c.Reply) {log : List Exchange} {x : α} :
      Runs (next reply) log x → Runs (.call c next) (⟨c, reply⟩ :: log) x

theorem Runs.of_bind_done {β : Type} {p : Session α} {f : α → β} {log : List Exchange} {y : β}
    (h : Runs (p >>= fun x => .done (f x)) log y) : ∃ x, p.Runs log x ∧ y = f x := by
  induction p generalizing log with
  | done x =>
    cases h
    exact ⟨x, .done x, rfl⟩
  | call c next ih =>
    cases h with
    | call reply hnext =>
      obtain ⟨x, hx, hy⟩ := ih reply hnext
      exact ⟨x, .call reply hx, hy⟩

/-- All procedures run to their ends. Any of them makes the next call. -/
inductive Parallel (answer : σ → (c : StoreCall) → c.Reply × σ) :
    Dict (Session α) → σ → List Exchange → Dict α → σ → Prop
  | done (results : Dict α) (s : σ) :
      Parallel answer (results.map fun e => (e.1, .done e.2)) s [] results s
  | call {tasks : Dict (Session α)} {name : String} {c : StoreCall} {next : c.Reply → Session α} {s t : σ}
      {log : List Exchange} {results : Dict α} :
      tasks.find? name = some (.call c next) →
      Parallel answer (tasks.insert name (next (answer s c).1)) (answer s c).2 log results t →
      Parallel answer tasks s (⟨c, (answer s c).1⟩ :: log) results t

def Separate (tasks : Dict (Session α)) : Prop := ∀ name p, tasks.find? name = some p → p.Within [name]

/-- Tasks stay separate when one of them makes a call. -/
theorem Separate.step {tasks : Dict (Session α)} (h : Separate tasks) {name : String} {c : StoreCall}
    {next : c.Reply → Session α} (hf : tasks.find? name = some (.call c next)) (reply : c.Reply) :
    Separate (tasks.insert name (next reply)) := by
  intro other p hp
  rw [Dict.find?_insert] at hp
  split at hp
  · next he =>
    obtain rfl := Option.some.inj hp
    exact he ▸ (h name _ hf).2 reply
  · exact h other p hp

namespace Parallel

variable {tasks : Dict (Session α)} {s t : σ} {log : List Exchange} {results : Dict α}

theorem sorted (h : Parallel answer tasks s log results t) (ht : tasks.Sorted) : results.Sorted := by
  induction h with
  | done results s =>
    unfold Dict.Sorted at ht
    rwa [List.pairwise_map] at ht
  | call hf _ ih => exact ih (ht.insert _ _)

/-- What goes to an index is a run of the procedure that is named for it, if there is one. -/
theorem runs (h : Parallel answer tasks s log results t) (hw : Separate tasks) (name : String) :
    match tasks.find? name with
    | some p => ∃ x, results.find? name = some x ∧ p.Runs (log.filter (·.call.index = name)) x
    | none => results.find? name = none ∧ log.filter (·.call.index = name) = [] := by
  induction h with
  | done results s =>
    rw [Dict.find?_map results (fun _ x => Session.done x)]
    cases hf : results.find? name with
    | none => exact ⟨rfl, rfl⟩
    | some x => exact ⟨x, rfl, .done x⟩
  | @call tasks owner c next s t log results hf _ ih =>
    have howner : c.index = owner := List.mem_singleton.1 (hw owner _ hf).1
    have ih := ih (hw.step hf _)
    rw [Dict.find?_insert] at ih
    by_cases hn : owner = name
    · subst hn
      rw [if_pos rfl] at ih
      obtain ⟨x, hx, hruns⟩ := ih
      rw [hf]
      refine ⟨x, hx, ?_⟩
      rw [List.filter_cons_of_pos (by simpa using howner)]
      exact .call _ hruns
    · rw [if_neg hn] at ih
      rwa [List.filter_cons_of_neg (by simpa [howner] using hn)]

/-- Every call is one of a procedure. -/
theorem exists_of_mem (h : Parallel answer tasks s log results t) (hw : Separate tasks) {x : Exchange}
    (hx : x ∈ log) : ∃ p, tasks.find? x.call.index = some p := by
  have hruns := h.runs hw x.call.index
  cases hf : tasks.find? x.call.index with
  | some p => exact ⟨p, rfl⟩
  | none =>
    rw [hf] at hruns
    have hm : x ∈ log.filter (·.call.index = x.call.index) := List.mem_filter.2 ⟨hx, by simp⟩
    rw [hruns.2] at hm
    cases hm

/-- A procedure that comes before all others and has ended. -/
theorem cons_done (h : Parallel answer tasks s log results t) {name : String} (x : α)
    (hlt : ∀ e ∈ tasks, name < e.1) :
    Parallel answer ((name, .done x) :: tasks) s log ((name, x) :: results) t := by
  induction h with
  | done results s => exact .done ((name, x) :: results) s
  | @call tasks owner c next s t log results hf _ ih =>
    have howner : name < owner := hlt _ (Dict.mem_of_find? hf)
    have hne : name ≠ owner := fun he => String.lt_irrefl owner (he ▸ howner)
    have hnot : ¬owner < name := fun h => String.lt_irrefl name (String.lt_trans howner h)
    have hinsert : Dict.insert ((name, .done x) :: tasks) owner (next (answer s c).1) =
        (name, .done x) :: tasks.insert owner (next (answer s c).1) := by
      simp [Dict.insert, hne, hnot]
    have hfind : Dict.find? ((name, .done x) :: tasks) owner = some (.call c next) := by
      simpa [Dict.find?, hne] using hf
    refine .call hfind ?_
    rw [hinsert]
    refine ih fun e he => ?_
    rcases Dict.eq_or_mem_of_mem_insert he with rfl | he
    · exact howner
    · exact hlt e he

/-- A procedure that comes before all others and runs before them. -/
theorem cons_runWith (p : Session α) {s : σ} (h : Parallel answer tasks (p.runWith answer s).2 log results t)
    {name : String} (hlt : ∀ e ∈ tasks, name < e.1) :
    ∃ log, Parallel answer ((name, p) :: tasks) s log ((name, (p.runWith answer s).1) :: results) t := by
  induction p generalizing s with
  | done x => exact ⟨log, h.cons_done x hlt⟩
  | call c next ih =>
    obtain ⟨log, hlog⟩ := ih (answer s c).1 h
    have hfind : Dict.find? ((name, .call c next) :: tasks) name = some (.call c next) := by simp [Dict.find?]
    have hinsert : Dict.insert ((name, .call c next) :: tasks) name (next (answer s c).1) =
        (name, next (answer s c).1) :: tasks := by simp [Dict.insert]
    refine ⟨⟨c, (answer s c).1⟩ :: log, .call hfind ?_⟩
    rw [hinsert]
    exact hlog

end Parallel

/-- Procedures run one after the other, in the order of their names. -/
theorem parallel_all {tasks : Dict (Session α)} (ht : tasks.Sorted) (answer : σ → (c : StoreCall) → c.Reply × σ)
    (s : σ) :
    ∃ log results t, Parallel answer tasks s log results t ∧
      (all (tasks.map fun e => e.2 >>= fun x => done (e.1, x))).runWith answer s = (results, t) := by
  induction tasks generalizing s with
  | nil => exact ⟨[], [], s, .done [] s, rfl⟩
  | cons e rest ih =>
    obtain ⟨name, p⟩ := e
    obtain ⟨hlt, hrest⟩ := List.pairwise_cons.1 ht
    obtain ⟨log, results, t, hlog, hrun⟩ := ih hrest (p.runWith answer s).2
    obtain ⟨log, hlog⟩ := hlog.cons_runWith p hlt
    refine ⟨log, _, t, hlog, ?_⟩
    have hnamed : (p >>= fun x => done (name, x)).runWith answer s =
        ((name, (p.runWith answer s).1), (p.runWith answer s).2) := runWith_bind answer p _ s
    rw [List.map_cons, runWith_all_cons, hnamed, hrun]

end Session
end ChainIndex
