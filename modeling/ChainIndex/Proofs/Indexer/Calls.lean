import ChainIndex.Proofs.Indexer.Runs

/-!
Calls of indexers as data, and the stores that they leave one after the other. While a call runs some indices may
be unavailable; after it all of them are available again.
-/
namespace ChainIndex

/-- A call of an indexer, and the indices that are unavailable while it runs. -/
inductive Call where
  | save (ix : Indexer) (block : Block) (down : List String)
  | revert (ix : Indexer) (header : Header) (body : Body) (down : List String)

variable {s : Store} {name : String}

namespace Call

def perform (s : Store) : Call → Store
  | save ix block down => (ix.saveBlock block (s.withUnavailable down)).2.2.withUnavailable []
  | revert ix header body down => (ix.revertBlock header body (s.withUnavailable down)).2.2.withUnavailable []

def performAll (calls : List Call) (s : Store) : Store := calls.foldl perform s

def down : Call → List String
  | save _ _ down => down
  | revert _ _ _ down => down

def denomination : Call → Denomination
  | save ix _ _ => ix.denomination
  | revert ix _ _ _ => ix.denomination

/-- A saved block has its transactions and results in order. -/
def Ordered : Call → Prop
  | save _ block _ => block.Ordered
  | revert .. => True

def Saves : Call → Prop
  | save .. => True
  | revert .. => False

theorem perform_save (ix : Indexer) (block : Block) (down : List String) :
    (save ix block down).perform s = ix.savedPartly block down s := ix.saveBlock_eq_savedPartly block down s

theorem perform_revert (ix : Indexer) (header : Header) (body : Body) (down : List String) :
    (revert ix header body down).perform s =
      Session.attempt (Rollback.revertBlock ix.denomination header body) down s :=
  ix.revertBlock_eq_attempt header body down s

theorem perform_save_nil (ix : Indexer) (block : Block) (h : s.Usable) :
    (save ix block []).perform s = ix.saved block s := (ix.saved_eq_savedPartly block h).symm

/-- What a revert leaves is told index by index, whichever of them are unavailable. -/
theorem remainsPartly_perform (ix : Indexer) (header : Header) (body : Body) (down : List String) (h : s.Usable) :
    Rollback.RemainsPartly down ix.denomination header body s ((revert ix header body down).perform s) := by
  rw [perform_revert]
  exact Rollback.remainsPartly ix.denomination header body h down

theorem usable_perform (call : Call) (h : s.Usable) : (call.perform s).Usable := by
  cases call with
  | save ix block down =>
    rw [perform_save]
    exact ix.usable_savedPartly block h down
  | revert ix header body down =>
    rw [perform_revert]
    exact Session.usable_attempt h _ down

/-- What each call preserves on usable stores holds after all of them. -/
theorem performAll_induction {P : Store → Prop} {calls : List Call} (hs : s.Usable) (start : P s)
    (step : ∀ call ∈ calls, ∀ t : Store, t.Usable → P t → P (call.perform t)) :
    (performAll calls s).Usable ∧ P (performAll calls s) :=
  List.foldlRecOn (motive := fun t => t.Usable ∧ P t) calls perform ⟨hs, start⟩ fun t ht call hc =>
    ⟨call.usable_perform ht.1, step call hc t ht.1 ht.2⟩

theorem usable_performAll (calls : List Call) (h : s.Usable) : (performAll calls s).Usable :=
  (performAll_induction (P := fun _ => True) h trivial fun _ _ _ _ _ => trivial).1

/-- A save leaves the documents of transactions, or those of operations, as they are, where their index or that of
tokens is not available, or makes of them what the block makes of them. -/
theorem get?_perform_save (ix : Indexer) {block : Block} (down : List String) (h : s.Usable) (hb : block.Ordered)
    (hn : name ∈ Index.records) :
    ((Index.tokens ∈ down ∨ name ∈ down) ∧
      ∀ id, ((save ix block down).perform s).get? name id = s.get? name id) ∨
    ∀ id, ((save ix block down).perform s).get? name id = ix.recordAfter block name id (s.get? name id) := by
  have hne : name ≠ Index.tokens := by
    rintro rfl
    exact absurd hn (by decide)
  rw [perform_save]
  rcases ix.get?_savedPartly_of_ne block h down hne with hstay | ⟨-, hget⟩
  · exact .inl hstay
  · exact .inr fun id => (hget id).trans (ix.written_records block hb hn id _)

end Call
end ChainIndex
